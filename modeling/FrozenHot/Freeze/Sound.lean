import FrozenHot.Freeze.Calls

/-! The invariant of a shard over lists: the items that are not tombstones are one for each key of
    the map, and `m_size` counts them.

    It survives every call, whatever mode the shard is in, except that a frozen key may be deleted
    only while its entry's node is linked. -/

namespace FrozenHot.ListShard
open Schemes

variable {α : Type} {τ τ' τ'' : ListShard α} {A B I J l : List Item} {x : Item} {n : Ptr} {k : ℕ}
variable {m : Finmap fun _ : ℕ => HashMapValue (Option α)} {e : HashMapValue (Option α)}
    {p : Option ℕ}

/-! ### Items that are not tombstones -/

/-- The items that are not tombstones. -/
def alive (l : List Item) : List Item := l.filter (·.key ≠ TOMB_KEY)

@[simp] theorem alive_nil : alive [] = [] := rfl

@[simp] theorem alive_append : alive (A ++ B) = alive A ++ alive B := List.filter_append ..

theorem alive_cons (hx : x.key ≠ TOMB_KEY) : alive (x :: l) = x :: alive l :=
  List.filter_cons_of_pos (by simpa using hx)

theorem alive_tomb (hx : x.key = TOMB_KEY) : alive (x :: l) = alive l :=
  List.filter_cons_of_neg (by simpa using hx)

theorem mem_alive : x ∈ alive l ↔ x ∈ l ∧ x.key ≠ TOMB_KEY := by simp [alive, List.mem_filter]

theorem alive_trim (l : List Item) : alive (trim l) = alive l := by
  induction l using List.reverseRecOn with
  | nil => rfl
  | append_singleton l x ih =>
    by_cases hx : x.key = TOMB_KEY
    · have ht : trim (l ++ [x]) = trim l := List.rdropWhile_concat_pos _ _ _ (by simpa using hx)
      rw [ht, ih, alive_append, alive_tomb hx, alive_nil, List.append_nil]
    · rw [trim, List.rdropWhile_concat_neg _ _ _ (by simpa using hx)]

/-- What is left of a list after trimming ends in an item that is not a tombstone. -/
theorem trim_last (ht : trim l = A ++ [x]) : x.key ≠ TOMB_KEY := by
  have hne : trim l ≠ [] := by simp [ht]
  have hlast : ¬ decide (((trim l).getLast hne).key = TOMB_KEY) = true :=
    List.rdropWhile_last_not _ l hne
  simpa [ht] using hlast

theorem trim_self (hl : ∀ x ∈ l, x.key ≠ TOMB_KEY) : trim l = l := by
  rw [trim, List.rdropWhile_eq_self_iff]
  intro hne
  simpa using hl _ (List.getLast_mem hne)

/-! ### One item for each key -/

/-- The items are one for each key of the map, but for a key `p` whose node is not linked yet. -/
structure Listed (p : Option ℕ) (m : Finmap fun _ : ℕ => HashMapValue (Option α)) (I : List Item) :
    Prop where
  nodup : (I.map Item.key).Nodup
  keys : ∀ k, k ∈ m ↔ k ∈ I.map Item.key ∨ p = some k
  pending : ∀ k, p = some k → k ∉ I.map Item.key
  valid : ∀ k ∈ m, ValidKey k

theorem Listed.mem (hl : Listed p m I) (hx : x ∈ I) : x.key ∈ m :=
  (hl.keys _).mpr (Or.inl (List.mem_map_of_mem hx))

theorem Listed.perm (hl : Listed p m I) (hp : I.Perm J) : Listed p m J :=
  ⟨(hp.map _).nodup_iff.mp hl.nodup, fun k => by rw [hl.keys, (hp.map Item.key).mem_iff],
    fun k hk => by rw [← (hp.map Item.key).mem_iff]; exact hl.pending k hk, hl.valid⟩

theorem Listed.remove (hl : Listed p m (A ++ x :: B)) : Listed p (m.erase x.key) (A ++ B) := by
  have hp : (A ++ x :: B).Perm (x :: (A ++ B)) := List.perm_middle
  have hl' := hl.perm hp
  have hnd := List.nodup_cons.mp hl'.nodup
  refine ⟨hnd.2, fun k => ?_, fun k hk => ?_, fun k hk => hl.valid k (Finmap.mem_erase.mp hk).2⟩
  · rw [Finmap.mem_erase, hl'.keys, List.map_cons, List.mem_cons]
    constructor
    · rintro ⟨h1, (h2 | h2) | h2⟩
      · exact (h1 h2).elim
      · exact Or.inl h2
      · exact Or.inr h2
    · rintro (h | h)
      · exact ⟨fun hc => hnd.1 (hc ▸ h), Or.inl (Or.inr h)⟩
      · exact ⟨fun hc => hl'.pending k h (by simp [hc]), Or.inr h⟩
  · exact fun hc => hl'.pending k hk (List.mem_cons_of_mem _ hc)

theorem Listed.link (hl : Listed (some k) m I) (n : Ptr) : Listed none m (⟨n, k⟩ :: I) :=
  ⟨List.nodup_cons.mpr ⟨hl.pending k rfl, hl.nodup⟩,
    fun k' => by rw [hl.keys]; simp [or_comm, eq_comm], fun _ h => (by cases h), hl.valid⟩

theorem valid_insert (hv : ∀ k ∈ m, ValidKey k) (hk : ValidKey k) :
    ∀ k' ∈ m.insert k e, ValidKey k' := fun k' hk' =>
  (Finmap.mem_insert.mp hk').elim (fun h => h ▸ hk) (hv k')

theorem Listed.place (hl : Listed none m I) (hm : k ∉ m) (hk : ValidKey k) :
    Listed (some k) (m.insert k e) I :=
  ⟨hl.nodup, fun k' => by rw [Finmap.mem_insert, hl.keys]; simp [or_comm, eq_comm],
    fun k' hk' => by cases hk'; exact fun hc => hm ((hl.keys k).mpr (Or.inl hc)),
    valid_insert hl.valid hk⟩

theorem Listed.overwrite (hl : Listed none m I) (hm : k ∈ m) : Listed none (m.insert k e) I := by
  refine ⟨hl.nodup, fun k' => ?_, hl.pending, valid_insert hl.valid (hl.valid k hm)⟩
  rw [Finmap.mem_insert, ← hl.keys]
  exact ⟨fun h => h.elim (fun h => h ▸ hm) id, Or.inr⟩

theorem Listed.length_le (hl : Listed p m I) : I.length ≤ 2 ^ 32 := by
  have hsub : (I.map Item.key).toFinset ⊆ Finset.range (2 ^ 32) := fun k hk => by
    rw [List.mem_toFinset] at hk
    exact Finset.mem_range.mpr (hl.valid k ((hl.keys k).mpr (Or.inl hk))).2
  have hcard := Finset.card_le_card hsub
  rwa [List.toFinset_card_of_nodup hl.nodup, List.length_map, Finset.card_range] at hcard

/-- The counter does not overflow: there are only so many keys. -/
theorem Listed.sizeInc_length (hl : Listed p m I) : sizeInc I.length = I.length + 1 :=
  Nat.mod_eq_of_lt (by have := hl.length_le; omega)

/-! ### Evictions -/

/-- With every item that is not a tombstone in the map, an eviction takes the last such item of the
    main list, and it returns. -/
theorem Listed.evict (hl : Listed p τ.m_map (alive τ.items)) :
    (alive τ.main = [] ∧ τ.evict p = some (false, { τ with main := [] })) ∨
    ∃ A x, trim τ.main = A ++ [x] ∧ alive τ.main = alive A ++ [x] ∧
      τ.evict p = some (true, { τ with main := A, m_map := τ.m_map.erase x.key }) := by
  have htrim := alive_trim τ.main
  rcases List.eq_nil_or_concat (trim τ.main) with ht | ⟨A, x, ht⟩
  · rw [ht] at htrim
    exact Or.inl ⟨htrim.symm, by simp [ListShard.evict, ht]⟩
  · rw [List.concat_eq_append] at ht
    have hx := trim_last ht
    rw [ht, alive_append, alive_cons hx, alive_nil] at htrim
    have hxI : x ∈ alive τ.items := by rw [items, alive_append, ← htrim]; simp
    have hheld : p ≠ some x.key := fun hp => hl.pending _ hp (List.mem_map_of_mem hxI)
    exact Or.inr ⟨A, x, ht, htrim.symm, by simp [ListShard.evict, ht, hl.mem hxI, hheld]⟩

/-- `τ'` is `τ` after some evictions. -/
def Shrunk (τ τ' : ListShard α) : Prop :=
  ∃ m s M, τ' = { τ with m_map := m, m_size := s, main := M } ∧ M <+: τ.main ∧
    ∀ k e, m.lookup k = some e → τ.m_map.lookup k = some e

theorem Shrunk.refl (τ : ListShard α) : Shrunk τ τ :=
  ⟨_, _, _, rfl, List.prefix_rfl, fun _ _ h => h⟩

theorem Shrunk.trans (h1 : Shrunk τ τ') (h2 : Shrunk τ' τ'') : Shrunk τ τ'' := by
  obtain ⟨m, s, M, rfl, hM, hm⟩ := h1
  obtain ⟨m', s', M', rfl, hM', hm'⟩ := h2
  exact ⟨m', s', M', rfl, hM'.trans hM, fun k e h => hm k e (hm' k e h)⟩

/-- The number of items goes down by one exactly when an eviction succeeds. -/
theorem Listed.evict_shrinks (hl : Listed p τ.m_map (alive τ.items)) :
    ∃ b τ', τ.evict p = some (b, τ') ∧ Listed p τ'.m_map (alive τ'.items) ∧ Shrunk τ τ' ∧
      τ'.m_size = τ.m_size ∧ (alive τ'.items).length + b.toNat = (alive τ.items).length := by
  have hpre := trim_prefix τ.main
  rcases hl.evict with ⟨hnil, he⟩ | ⟨A, x, ht, hal, he⟩
  · have hI : alive (items { τ with main := [] }) = alive τ.items := by simp [items, hnil]
    refine ⟨_, _, he, by rw [hI]; exact hl, ⟨_, _, _, rfl, List.nil_prefix, fun _ _ h => h⟩, rfl,
      ?_⟩
    rw [hI]; rfl
  · have hI : alive τ.items = alive (τ.frozen ++ A) ++ x :: [] := by
      simp [items, hal]
    rw [hI] at hl ⊢
    rw [ht] at hpre
    have hl' := hl.remove
    rw [List.append_nil] at hl'
    refine ⟨_, _, he, hl', ⟨_, _, _, rfl, (List.prefix_append A [x]).trans hpre, fun k e h => ?_⟩,
      rfl, ?_⟩
    · exact (Shard.lookup_erase_cases h).1
    · simp [items, add_assoc]

/-! ### The invariant -/

structure Sound (τ : ListShard α) : Prop where
  listed : Listed none τ.m_map (alive τ.items)
  size : τ.m_size = (alive τ.items).length
  idle : τ.fast_hash_construct = false

/-- What the heap behind the lists guarantees: an item has its own node, and the node of an entry
    carries the key of the entry. -/
structure Own (τ : ListShard α) : Prop where
  nodup : (τ.items.map Item.node).Nodup
  key : ∀ k e, τ.m_map.lookup k = some e → ∀ x ∈ τ.items, x.node = e.m_listNode → x.key = k

theorem own_of_rep {s : Option Ptr} {σ : Shard α} (hr : Shard.Rep s σ τ) : Own τ := by
  refine ⟨hr.holds.lists.nodup, fun k e he x hx hn => ?_⟩
  have h1 := hr.holds.lists.key x hx
  rw [hn] at h1
  exact Option.some.inj (h1.symm.trans (hr.holds.entry k e he).key)

theorem sound_init (maxSize : ℕ) : Sound (init maxSize : ListShard α) :=
  ⟨⟨by simp [items, init], fun k => by simp [items, init, Core.init, Finmap.notMem_empty], by simp,
    fun k hk => (Finmap.notMem_empty hk).elim⟩, rfl, rfl⟩

theorem Sound.ne_tomb (hs : Sound τ) (hm : k ∈ τ.m_map) : k ≠ TOMB_KEY :=
  (hs.listed.valid k hm).ne_tomb

/-- An item is in the map exactly if it is not a tombstone. -/
theorem Sound.mem_iff (hs : Sound τ) (hx : x ∈ τ.items) : x.key ∈ τ.m_map ↔ x.key ≠ TOMB_KEY :=
  ⟨hs.ne_tomb, fun h => hs.listed.mem (mem_alive.mpr ⟨hx, h⟩)⟩

/-! ### `find` -/

/-- A linked item splits the lists at it. -/
theorem Own.split (ho : Own τ) (hx : x ∈ τ.items) :
    ∃ A B, τ.items = A ++ x :: B ∧ x.node ∉ (A ++ B).map Item.node := by
  obtain ⟨A, B, h⟩ := List.append_of_mem hx
  refine ⟨A, B, h, ?_⟩
  have := ho.nodup
  rw [h, List.map_append, List.map_cons] at this
  rw [List.map_append]; exact (List.nodup_middle.mp this).notMem

theorem promote_cases (τ : ListShard α) (n : Ptr) : τ.promote n = τ ∨ ∃ x ∈ τ.items, x.node = n ∧
    τ.promote n = { τ with frozen := detach n τ.frozen, main := x :: detach n τ.main } := by
  unfold promote
  cases hf : τ.items.find? (·.node = n) with
  | none => exact Or.inl rfl
  | some x => exact Or.inr ⟨x, List.mem_of_find?_eq_some hf, by simpa using List.find?_some hf, rfl⟩

/-- `find` changes nothing, or promotes the node of an entry the fast hash did not answer for. -/
theorem find_cases (τ : ListShard α) (lock : Bool) (k : ℕ) : (τ.find lock k).2 = τ ∨
    ∃ e, τ.m_map.lookup k = some e ∧ τ.tier_ready = false ∧
      (τ.fast_hash_ready = true → τ.m_fasthash.get k = none) ∧
      (τ.find lock k).2 = τ.promote e.m_listNode := by
  have hslow : ∀ τ : ListShard α, (findSlow lock τ k).2 = τ ∨ ∃ e, τ.m_map.lookup k = some e ∧
      (findSlow lock τ k).2 = τ.promote e.m_listNode := by
    intro τ
    unfold findSlow
    split
    · exact Or.inl rfl
    · rename_i e he
      split
      · exact Or.inr ⟨e, he, rfl⟩
      · exact Or.inl rfl
  unfold find
  by_cases hf : (τ.tier_ready || τ.fast_hash_ready) = true
  · rw [if_pos hf]
    cases hg : τ.m_fasthash.get k with
    | some v => exact Or.inl rfl
    | none =>
      cases ht : τ.tier_ready with
      | true => exact Or.inl rfl
      | false =>
        rcases hslow τ with h | ⟨e, he, h⟩
        · exact Or.inl h
        · exact Or.inr ⟨e, he, rfl, fun _ => rfl, h⟩
  · rw [if_neg hf]
    simp only [Bool.or_eq_true, not_or, Bool.not_eq_true] at hf
    rcases hslow τ with h | ⟨e, he, h⟩
    · exact Or.inl h
    · exact Or.inr ⟨e, he, hf.1, fun h => by simp [hf.2] at h, h⟩

/-- `find` changes nothing, or moves the node of such an entry to the front of the main list. -/
theorem find_moves (τ : ListShard α) (lock : Bool) (k : ℕ) : (τ.find lock k).2 = τ ∨
    ∃ e x, τ.m_map.lookup k = some e ∧ τ.tier_ready = false ∧
      (τ.fast_hash_ready = true → τ.m_fasthash.get k = none) ∧
      (τ.find lock k).2 =
        { τ with
          frozen := detach e.m_listNode τ.frozen, main := x :: detach e.m_listNode τ.main } := by
  rcases find_cases τ lock k with h | ⟨e, he, ht, hr, h⟩
  · exact Or.inl h
  · rcases promote_cases τ e.m_listNode with hp | ⟨x, -, -, hp⟩
    · exact Or.inl (h.trans hp)
    · exact Or.inr ⟨e, x, he, ht, hr, h.trans hp⟩

/-- Promotion reorders the items. -/
theorem Own.promote_perm (ho : Own τ) (n : Ptr) : (τ.promote n).items.Perm τ.items := by
  rcases promote_cases τ n with h | ⟨x, hx, rfl, h⟩
  · rw [h]
  · obtain ⟨A, B, hI, hoff⟩ := ho.split hx
    have hd : detach x.node τ.frozen ++ detach x.node τ.main = A ++ B := by
      rw [← detach_middle hoff, ← hI, items, detach, detach, detach, List.filter_append]
    rw [h, hI]
    exact List.perm_middle.trans (by rw [hd]; exact List.perm_middle.symm)

theorem promote_core (τ : ListShard α) (n : Ptr) : (τ.promote n).toCore = τ.toCore := by
  rcases promote_cases τ n with h | ⟨x, -, -, h⟩ <;> rw [h]

theorem Sound.of_perm (hs : Sound τ) (hc : τ'.toCore = τ.toCore) (hp : τ'.items.Perm τ.items) :
    Sound τ' := by
  have hal : (alive τ'.items).Perm (alive τ.items) := hp.filter _
  refine ⟨?_, ?_, ?_⟩
  · rw [hc]; exact hs.listed.perm hal.symm
  · rw [hc, hal.length_eq]; exact hs.size
  · rw [hc]; exact hs.idle

theorem find_core (τ : ListShard α) (lock : Bool) (k : ℕ) :
    (τ.find lock k).2.toCore = τ.toCore := by
  rcases find_cases τ lock k with h | ⟨e, -, -, -, h⟩ <;> rw [h]
  exact promote_core τ _

theorem Own.find_perm (ho : Own τ) (lock : Bool) (k : ℕ) :
    (τ.find lock k).2.items.Perm τ.items := by
  rcases find_cases τ lock k with h | ⟨e, -, -, -, h⟩ <;> rw [h]
  exact ho.promote_perm _

theorem Sound.find (hs : Sound τ) (ho : Own τ) (lock : Bool) (k : ℕ) : Sound (τ.find lock k).2 :=
  hs.of_perm (find_core τ lock k) (ho.find_perm lock k)

/-! ### `insert` -/

/-- The shard with a new key in the map and at the front of the main list. -/
def linked (τ : ListShard α) (k : ℕ) (v : Option α) : ListShard α :=
  { τ.place k v with main := ⟨.node τ.fresh, k⟩ :: τ.main }

/-- `insert` of an absent key in a full shard: the last item of the main list leaves. -/
theorem insert_full (hno : τ.tier_no_insert = false) (hm : k ∉ τ.m_map)
    (hfull : τ.m_size = τ.m_maxSize) (ht : trim τ.main = A ++ [x]) (hx : x.key ∈ τ.m_map)
    (v : Option α) :
    τ.insert k v = some (true, { τ.linked k v with
      main := ⟨.node τ.fresh, k⟩ :: A, m_map :=
        (τ.m_map.insert k ⟨v, .node τ.fresh⟩).erase x.key }) := by
  have hxk : x.key ≠ k := fun h => hm (h ▸ hx)
  have hev : evict (some k) (τ.place k v) = some (true, { τ.place k v with
      main := A, m_map := (τ.m_map.insert k ⟨v, .node τ.fresh⟩).erase x.key }) := by
    simp [evict, place, ht, hx, hxk.symm]
  have h1 : τ.m_maxSize ≤ (τ.place k v).m_size := hfull.ge
  have h2 : ¬ τ.m_maxSize < τ.m_size := hfull.not_gt
  have h3 : (τ.place k v).m_maxSize = τ.m_maxSize := rfl
  simp [insert, hno, hm, makeRoom, settle, ListShard.correct, count, linked, hev, h1, h2, h3]

theorem Shrunk.idle (h : Shrunk τ τ') : τ'.fast_hash_construct = τ.fast_hash_construct := by
  obtain ⟨_, _, _, rfl, _⟩ := h; rfl

theorem Shrunk.frozen (h : Shrunk τ τ') : τ'.frozen = τ.frozen := by
  obtain ⟨_, _, _, rfl, _⟩ := h; rfl

theorem Shrunk.main (h : Shrunk τ τ') : τ'.main <+: τ.main := by
  obtain ⟨_, _, _, rfl, hM, _⟩ := h; exact hM

theorem Shrunk.sub (h : Shrunk τ τ') (he : τ'.m_map.lookup k = some e) :
    τ.m_map.lookup k = some e := by
  obtain ⟨_, _, _, rfl, _, hm⟩ := h; exact hm k e he

theorem Shrunk.fasthash (h : Shrunk τ τ') : τ'.m_fasthash = τ.m_fasthash := by
  obtain ⟨_, _, _, rfl, _⟩ := h; rfl

theorem Shrunk.modes (h : Shrunk τ τ') : τ'.tier_ready = τ.tier_ready ∧
    τ'.tier_no_insert = τ.tier_no_insert ∧ τ'.fast_hash_ready = τ.fast_hash_ready := by
  obtain ⟨_, _, _, rfl, _⟩ := h; exact ⟨rfl, rfl, rfl⟩

theorem Shrunk.withSize (h : Shrunk τ τ') (n : ℕ) : Shrunk τ { τ' with m_size := n } := by
  obtain ⟨m, _, M, rfl, hM, hm⟩ := h
  exact ⟨m, n, M, rfl, hM, hm⟩

/-- The second eviction of `insert`, which also counts down. -/
theorem Sound.correct (hs : Sound τ) (n : ℕ) :
    ∃ τ', τ.correct n = some τ' ∧ Shrunk τ τ' ∧ Sound τ' := by
  unfold ListShard.correct
  split
  · obtain ⟨b, τ', he, hl, hsh, hsize, hlen⟩ := hs.listed.evict_shrinks
    rw [he]
    have hn := hs.size
    cases b with
    | false =>
      refine ⟨τ', rfl, hsh, hl, ?_, hsh.idle.trans hs.idle⟩
      rw [hsize, hn]; simpa using hlen.symm
    | true =>
      refine ⟨_, rfl, hsh.withSize _, hl, ?_, hsh.idle.trans hs.idle⟩
      have hpos : τ'.m_size = (alive τ'.items).length + 1 := by
        rw [hsize, hn]; simpa using hlen.symm
      show sizeDec τ'.m_size = (alive τ'.items).length
      rw [hpos, sizeDec_succ]
  · exact ⟨τ, rfl, Shrunk.refl τ, hs⟩

/-- A new key is accepted, unless the shard is frozen as a whole; evictions make room for it. -/
theorem Sound.insert_new (hs : Sound τ) (hk : ValidKey k) (hno : τ.tier_no_insert = false)
    (hm : k ∉ τ.m_map) (v : Option α) :
    ∃ τ', τ.insert k v = some (true, τ') ∧ Shrunk (τ.linked k v) τ' ∧ Sound τ' := by
  have hl₁ : Listed (some k) (τ.place k v).m_map (alive (τ.place k v).items) :=
    hs.listed.place hm hk
  obtain ⟨b, τ₂, hroom, hl₂, hsh₂, hsize₂, hlen₂⟩ :
      ∃ b τ₂, makeRoom (τ.place k v) k = some (b, τ₂) ∧
      Listed (some k) τ₂.m_map (alive τ₂.items) ∧ Shrunk (τ.place k v) τ₂ ∧ τ₂.m_size = τ.m_size ∧
      (alive τ₂.items).length + b.toNat = (alive τ.items).length := by
    unfold makeRoom
    split
    · exact hl₁.evict_shrinks
    · exact ⟨_, _, rfl, hl₁, Shrunk.refl _, rfl, rfl⟩
  -- the new node is linked and counted
  let τ₃ : ListShard α := { τ₂ with main := ⟨.node τ.fresh, k⟩ :: τ₂.main }
  have hperm : (⟨.node τ.fresh, k⟩ :: alive τ₂.items).Perm (alive τ₃.items) := by
    have hnew := alive_cons (x := ⟨.node τ.fresh, k⟩) (l := τ₂.main) hk.ne_tomb
    simp only [items, τ₃, alive_append, hnew]
    exact List.perm_middle.symm
  have hsh₃ : Shrunk (τ.linked k v) (τ₃.count b) := by
    obtain ⟨m, s, M, rfl, hM, hmm⟩ := hsh₂
    have hM' : ⟨.node τ.fresh, k⟩ :: M <+: (τ.linked k v).main := List.prefix_cons_inj _ |>.mpr hM
    cases b
    · exact ⟨m, sizeInc s, _, rfl, hM', hmm⟩
    · exact ⟨m, s, _, rfl, hM', hmm⟩
  have hs₃ : Sound (τ₃.count b) := by
    have hl₃ : Listed none τ₃.m_map (alive τ₃.items) := (hl₂.link _).perm hperm
    have hn := hperm.length_eq
    have hn' := hs.size
    rw [List.length_cons] at hn
    cases b with
    | false =>
      refine ⟨hl₃, ?_, hsh₃.idle.trans hs.idle⟩
      show sizeInc τ₂.m_size = (alive τ₃.items).length
      rw [hsize₂, hn', hs.listed.sizeInc_length]
      simp at hlen₂; omega
    | true =>
      refine ⟨hl₃, ?_, hsh₃.idle.trans hs.idle⟩
      show τ₂.m_size = (alive τ₃.items).length
      simp at hlen₂; omega
  obtain ⟨τ', h1, h2, h3⟩ := hs₃.correct (if b then τ.m_size else τ₃.m_size)
  refine ⟨τ', ?_, hsh₃.trans h2, h3⟩
  simp only [insert, hno, hm, hroom, if_false, Bool.false_eq_true]
  show (τ₃.settle τ.m_size b).bind _ = _
  rw [settle, h1]; rfl

theorem insert_refused (hno : τ.tier_no_insert = true) (k : ℕ) (v : Option α) :
    τ.insert k v = some (false, τ) := by simp [insert, hno]

theorem insert_present (hno : τ.tier_no_insert = false) (hm : k ∈ τ.m_map) (v : Option α) :
    τ.insert k v = some (false, τ.place k v) := by simp [insert, hno, hm]

/-- What `insert` does to a sound shard. -/
theorem Sound.insert_cases (hs : Sound τ) (hk : ValidKey k) (v : Option α) :
    (τ.tier_no_insert = true ∧ τ.insert k v = some (false, τ)) ∨
    (τ.tier_no_insert = false ∧ k ∈ τ.m_map ∧ τ.insert k v = some (false, τ.place k v)) ∨
    (τ.tier_no_insert = false ∧ k ∉ τ.m_map ∧
      ∃ τ', τ.insert k v = some (true, τ') ∧ Shrunk (τ.linked k v) τ' ∧ Sound τ') := by
  cases hno : τ.tier_no_insert with
  | true => exact Or.inl ⟨rfl, insert_refused hno k v⟩
  | false =>
    right
    by_cases hm : k ∈ τ.m_map
    · exact Or.inl ⟨rfl, hm, insert_present hno hm v⟩
    · exact Or.inr ⟨rfl, hm, hs.insert_new hk hno hm v⟩

theorem Sound.place (hs : Sound τ) (hm : k ∈ τ.m_map) (v : Option α) : Sound (τ.place k v) :=
  ⟨hs.listed.overwrite hm, hs.size, hs.idle⟩

/-! ### `delete_key` -/

theorem bury_none (hn : n ∉ l.map Item.node) : bury n l = l := by
  rw [bury]
  conv_rhs => rw [← List.map_id l]
  refine List.map_congr_left fun x hx => if_neg ?_
  rintro rfl
  exact hn (List.mem_map_of_mem hx)

theorem bury_middle (hx : x.node ∉ (A ++ B).map Item.node) :
    bury x.node (A ++ x :: B) = A ++ ⟨x.node, TOMB_KEY⟩ :: B := by
  rw [List.map_append, List.mem_append, not_or] at hx
  have h1 := bury_none hx.1
  have h2 := bury_none hx.2
  rw [bury] at h1 h2 ⊢
  rw [List.map_append, List.map_cons, h1, h2, if_pos rfl]

/-- What `delete_key` can do: nothing, turn the node into a tombstone, or unlink it. -/
theorem delete_cases (hc : τ.fast_hash_construct = false) (k : ℕ) :
    (τ.delete_key k = τ ∧ ∀ e, τ.m_map.lookup k = some e →
      τ.frozenHit k = false ∧ e.m_listNode ∉ τ.items.map Item.node) ∨
    ∃ e, τ.m_map.lookup k = some e ∧
      ((τ.frozenHit k = true ∧ τ.delete_key k = { τ with
        m_map := τ.m_map.erase k, m_size := sizeDec τ.m_size
        frozen := bury e.m_listNode τ.frozen, main := bury e.m_listNode τ.main }) ∨
      (τ.frozenHit k = false ∧ e.m_listNode ∈ τ.items.map Item.node ∧ τ.delete_key k = { τ with
        m_map := τ.m_map.erase k, m_size := sizeDec τ.m_size
        frozen := detach e.m_listNode τ.frozen, main := detach e.m_listNode τ.main })) := by
  unfold delete_key
  cases hlk : τ.m_map.lookup k with
  | none => exact Or.inl ⟨rfl, fun e he => by cases he⟩
  | some e =>
    have hhit : (τ.fast_hash_construct || ((τ.tier_ready || τ.fast_hash_ready) &&
        (τ.m_fasthash.get k).isSome)) = τ.frozenHit k := by rw [hc, Bool.false_or]; rfl
    simp only [hhit]
    cases hf : τ.frozenHit k with
    | true => exact Or.inr ⟨e, rfl, Or.inl ⟨rfl, rfl⟩⟩
    | false =>
      by_cases hn : e.m_listNode ∈ τ.items.map Item.node
      · exact Or.inr ⟨e, rfl, Or.inr ⟨rfl, hn, by simp [hn]⟩⟩
      · exact Or.inl ⟨by simp [hn], fun e' he => by cases he; exact ⟨rfl, hn⟩⟩

/-- The node of the key's entry is on a list. -/
def LinkedKey (τ : ListShard α) (k : ℕ) : Prop :=
  ∀ e, τ.m_map.lookup k = some e → e.m_listNode ∈ τ.items.map Item.node

/-- A deletion that takes effect removes the item of the key. -/
theorem Own.delete_removes (ho : Own τ) (he : τ.m_map.lookup k = some e)
    (hn : e.m_listNode ∈ τ.items.map Item.node) (hk : k ≠ TOMB_KEY) : ∃ A x B,
      alive τ.items = A ++ x :: B ∧ x.key = k ∧
      alive (bury e.m_listNode τ.frozen ++ bury e.m_listNode τ.main) = A ++ B ∧
      alive (detach e.m_listNode τ.frozen ++ detach e.m_listNode τ.main) = A ++ B := by
  obtain ⟨x, hx, hxn⟩ := List.mem_map.mp hn
  have hxk := ho.key k e he x hx hxn
  obtain ⟨A, B, hI, hoff⟩ := ho.split hx
  have hb : bury x.node τ.frozen ++ bury x.node τ.main = A ++ ⟨x.node, TOMB_KEY⟩ :: B := by
    rw [← bury_middle hoff, ← hI, items, bury, bury, bury, List.map_append]
  have hd : detach x.node τ.frozen ++ detach x.node τ.main = A ++ B := by
    rw [← detach_middle hoff, ← hI, items, detach, detach, detach, List.filter_append]
  rw [← hxn, hb, hd, hI]
  refine ⟨alive A, x, alive B, ?_, hxk, ?_, by simp⟩
  · rw [alive_append, alive_cons (by rwa [hxk])]
  · rw [alive_append, alive_tomb rfl]

/-- A deletion is a no-op on a key that is absent or whose node is not linked; otherwise it removes
    the item and the entry. -/
theorem Sound.delete_cases (hs : Sound τ) (ho : Own τ)
    (hlink : τ.frozenHit k = true → τ.LinkedKey k) :
    (τ.delete_key k = τ ∧ (k ∈ τ.m_map → ¬ τ.LinkedKey k)) ∨
    ∃ A x B F M, alive τ.items = A ++ x :: B ∧ x.key = k ∧ alive (F ++ M) = A ++ B ∧
      τ.delete_key k = { τ with
        m_map := τ.m_map.erase k, m_size := sizeDec τ.m_size, frozen := F, main := M } := by
  rcases ListShard.delete_cases hs.idle k with ⟨h, hno⟩ | ⟨e, he, h⟩
  · refine Or.inl ⟨h, fun hm hl => ?_⟩
    obtain ⟨e, he⟩ := Finmap.mem_iff.mp hm
    exact (hno e he).2 (hl e he)
  · have hk := hs.ne_tomb (Finmap.mem_iff.mpr ⟨e, he⟩)
    right
    rcases h with ⟨hf, h⟩ | ⟨hf, hn, h⟩
    · obtain ⟨A, x, B, h1, h2, h3, -⟩ := ho.delete_removes he (hlink hf e he) hk
      exact ⟨A, x, B, _, _, h1, h2, h3, h⟩
    · obtain ⟨A, x, B, h1, h2, -, h4⟩ := ho.delete_removes he hn hk
      exact ⟨A, x, B, _, _, h1, h2, h4, h⟩

theorem Sound.delete_key (hs : Sound τ) (ho : Own τ)
    (hlink : τ.frozenHit k = true → τ.LinkedKey k) :
    Sound (τ.delete_key k) := by
  rcases hs.delete_cases ho hlink with ⟨h, -⟩ | ⟨A, x, B, F, M, hI, rfl, hI', h⟩
  · rw [h]; exact hs
  · have hl := hs.listed
    have hn := hs.size
    rw [hI] at hl hn
    rw [h]
    refine ⟨?_, ?_, hs.idle⟩
    · show Listed none _ (alive (F ++ M))
      rw [hI']; exact hl.remove
    · show sizeDec τ.m_size = (alive (F ++ M)).length
      have hn' : τ.m_size = (A ++ B).length + 1 := by rw [hn]; simp; omega
      rw [hI', hn', sizeDec_succ]

/-! ### Freezing and thawing -/

theorem Sound.of_alive (hs : Sound τ) (hm : τ'.m_map = τ.m_map) (hn : τ'.m_size = τ.m_size)
    (hI : alive τ'.items = alive τ.items) (hc : τ'.fast_hash_construct = false) : Sound τ' :=
  ⟨by rw [hm, hI]; exact hs.listed, by rw [hn, hI]; exact hs.size, hc⟩

/-- A freeze keeps the items that are not tombstones. -/
theorem Sound.kept (hs : Sound τ) : τ.main.filter (Live τ.m_map) = alive τ.main := by
  refine List.filter_congr fun x hx => ?_
  have := hs.mem_iff (x := x) (List.mem_append_right _ hx)
  exact decide_eq_decide.mpr ⟨fun h => h.1, fun h => ⟨h, this.mpr h⟩⟩

theorem alive_alive (l : List Item) : alive (alive l) = alive l :=
  by simp [alive, List.filter_filter]

/-- What `construct_tier` does to a sound shard. -/
theorem Sound.construct_tier_eq (hs : Sound τ) (hF : τ.frozen = []) :
    τ.construct_tier = some { τ with
      frozen := alive τ.main, main := [], m_fasthash := copy τ.m_map τ.m_fasthash (alive τ.main)
      tier_ready := true, tier_no_insert := true, fast_hash_construct := false } := by
  simp [construct_tier, hF, hs.kept]

theorem construct_tier_thawed (h : τ.construct_tier = some τ') : τ.frozen = [] := by
  by_contra hF; simp [construct_tier, hF] at h

theorem Sound.construct_tier (hs : Sound τ) (h : τ.construct_tier = some τ') : Sound τ' := by
  have hF := construct_tier_thawed h
  rw [hs.construct_tier_eq hF] at h
  cases h
  refine hs.of_alive rfl rfl ?_ rfl
  simp [items, hF, alive_alive]

/-- The scan freezes what stays of a part of the list before the cut. -/
theorem split_spec {limit i : ℕ} {K : List Item} (h : split m limit i l = some (K, B)) :
    ∃ P, l = P ++ B ∧ K = P.filter (·.key ∈ m) ∧ K ≠ [] := by
  induction l generalizing i K with
  | nil => simp [split] at h
  | cons x l ih =>
    by_cases hx : x.key ∈ m
    · by_cases hcut : i + 1 > limit
      · obtain ⟨rfl, rfl⟩ : [x] = K ∧ l = B := by simpa [split, hx, hcut] using h
        exact ⟨[x], rfl, by simp [hx], by simp⟩
      · obtain ⟨K', h', rfl⟩ : ∃ K', split m limit (i + 1) l = some (K', B) ∧ x :: K' = K := by
          simpa [split, hx, hcut] using h
        obtain ⟨P, rfl, rfl, -⟩ := ih h'
        exact ⟨x :: P, rfl, by simp [hx], by simp⟩
    · obtain ⟨P, rfl, rfl, hne⟩ := ih (by simpa [split, hx] using h)
      exact ⟨x :: P, rfl, by simp [hx], hne⟩

/-- What `construct_ratio` does to a sound shard, when it returns. -/
theorem Sound.construct_ratio_cases {FC_size : ℕ} (hs : Sound τ)
    (h : τ.construct_ratio FC_size = some τ') :
    ∃ P B, τ.frozen = [] ∧ τ.main = P ++ B ∧ alive P ≠ [] ∧
      FC_size ≤ τ.m_maxSize ∧
      split τ.m_map (sizeSub FC_size FC_RELAXATION) 0 τ.main = some (alive P, B) ∧ τ' = { τ with
        frozen := alive P, main := B, m_fasthash := copy τ.m_map τ.m_fasthash (alive P)
        fast_hash_ready := true, fast_hash_construct := false, eviction_counter := 0 } := by
  unfold construct_ratio at h
  split at h
  · cases h
  · split at h
    · rename_i hok
      obtain ⟨⟨K, B⟩, hsp, rfl⟩ := Option.map_eq_some_iff.mp h
      obtain ⟨P, hP, hK, hne⟩ := split_spec hsp
      have hKP : K = alive P := by
        rw [hK]
        refine List.filter_congr fun x hx => ?_
        have := hs.mem_iff (x := x) (by rw [items, hP]; simp [hx])
        simp only [this]
      subst hKP
      exact ⟨P, B, hok.2.1, hP, hne, hok.1, hsp, rfl⟩
    · cases h

theorem Sound.construct_ratio {FC_size : ℕ} (hs : Sound τ)
    (h : τ.construct_ratio FC_size = some τ') : Sound τ' := by
  obtain ⟨P, B, hF, hP, -, -, -, rfl⟩ := hs.construct_ratio_cases h
  refine hs.of_alive rfl rfl ?_ rfl
  simp [items, hF, hP, alive_alive]

theorem Sound.deconstruct (hs : Sound τ) : Sound τ.deconstruct := by
  unfold ListShard.deconstruct
  split
  · exact hs
  · exact hs.of_alive rfl rfl (by simp [items]) hs.idle

end FrozenHot.ListShard
