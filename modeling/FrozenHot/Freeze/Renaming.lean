import FrozenHot.Schemes.Lockstep
import FrozenHot.Freeze.Duplicates
import FrozenHot.Freeze.Calls

/-! Keys of the FrozenHot list caches are interchangeable, but for the tombstone key.

    A shard and the one with renamed keys go in lock step: the same nodes at the same places, with
    renamed keys, and the map has the entries of a key under its new name. A key is compared with
    other keys and with `TOMB_KEY` only, and so the one thing that a renaming must respect is which
    key is `TOMB_KEY`. `evict` discards a node with that key and leaves its entry. -/

namespace FrozenHot
open Schemes

variable {α : Type}

/-- Keys that the loaders produce. -/
def ClientKey (k : ℕ) : Prop := k ≠ SPECIAL_KEY ∧ k < 2 ^ 32

instance (k : ℕ) : Decidable (ClientKey k) := inferInstanceAs (Decidable (_ ∧ _))

/-- The key of a `find`, `insert` or `delete_key`. -/
def FHCall.key? : FHCall α → Option ℕ
  | .find k | .insert k _ | .delete_key k => some k
  | _ => none

/-- The call with its key renamed. -/
def FHCall.rename (g : ℕ → ℕ) : FHCall α → FHCall α
  | .find k => .find (g k)
  | .insert k v => .insert (g k) v
  | .get k v => .get (g k) v
  | .delete_key k => .delete_key (g k)
  | .construct_tier => .construct_tier
  | .construct_ratio FC_size => .construct_ratio FC_size
  | .deconstruct => .deconstruct

/-- A call together with `size()` after it. -/
def FHList.sized (κ : FHList) (σ : Shard α) (c : Bool × FHCall α) :
    Except Fault ((FHResp α × ℕ) × Shard α) := do
  let r ← κ.call σ c
  return ((r.1, r.2.m_size), r.2)

namespace Shard

/-- A renaming that respects the keys with a meaning of their own, on the keys in use. -/
structure Renaming (f : ℕ → ℕ) (U : Set ℕ) : Prop where
  inj : Set.InjOn f U
  special : SPECIAL_KEY ∈ U ∧ f SPECIAL_KEY = SPECIAL_KEY
  tomb : TOMB_KEY ∈ U ∧ f TOMB_KEY = TOMB_KEY

/-- The contents of a node, and those with the key renamed. -/
def Renamed (f : ℕ → ℕ) (U : Set ℕ) (d d' : NodeData) : Prop :=
  d.m_key ∈ U ∧ d'.m_key = f d.m_key ∧ d'.m_time = d.m_time

/-- The entries of the keys in use are under their new names. -/
def SameEntries (f : ℕ → ℕ) (U : Set ℕ) (m m' : Finmap fun _ : ℕ => HashMapValue (Option α)) :
    Prop :=
  ∀ k ∈ U, m'.lookup (f k) = m.lookup k

/-- A shard in plain mode, and the one with the keys renamed. -/
structure Twins (f : ℕ → ℕ) (U : Set ℕ) (σ σ' : Shard α) : Prop where
  heap : Heap.Related (Renamed f U) σ.heap σ'.heap
  map : SameEntries f U σ.m_map σ'.m_map
  rest : σ' = { σ with heap := σ'.heap, m_map := σ'.m_map }
  plain : Plain σ

variable {f : ℕ → ℕ} {U : Set ℕ} {σ σ' : Shard α} {h h' : Heap Ptr NodeData} {k : ℕ}
    {v : Option α} {n : Ptr}

theorem Renaming.tomb_iff (hf : Renaming f U) (hk : k ∈ U) : f k = TOMB_KEY ↔ k = TOMB_KEY := by
  refine ⟨fun h => hf.inj hk hf.tomb.1 (h.trans hf.tomb.2.symm), ?_⟩
  rintro rfl
  exact hf.tomb.2

/-! ### Accesses to the list -/

theorem keyOf_agree (hh : Heap.Related (Renamed f U) h h') (n : Ptr) :
    Agree (fun k k' => k ∈ U ∧ k' = f k) (keyOf h n) (keyOf h' n) :=
  (hh.getVal n).bind fun _ _ hd => .ok ⟨hd.1, hd.2.1⟩

theorem isInList_agree (hh : Heap.Related (Renamed f U) h h') (n : Ptr) :
    Agree Eq (isInList h n) (isInList h' n) :=
  (hh.getPrev n).bind fun p p' hp => .ok (by rw [hp])

theorem delinkChecked_agree (hh : Heap.Related (Renamed f U) h h') (n : Ptr) :
    Agree (Heap.Related (Renamed f U)) (delinkChecked h n) (delinkChecked h' n) := by
  refine (Agree.assert Iff.rfl).bind fun _ _ _ => ?_
  refine (hh.getPrev n).bind fun prev _ hprev => ?_
  subst hprev
  refine (hh.getNext n).bind fun next _ hnext => ?_
  subst hnext
  refine (Agree.assert Iff.rfl).bind fun _ _ _ => ?_
  refine (hh.setNext _ _).bind fun h₁ h₁' hh₁ => ?_
  refine (Agree.assert Iff.rfl).bind fun _ _ _ => ?_
  exact (hh₁.setPrev _ _).bind fun h₂ h₂' hh₂ => hh₂.setPrev _ _

theorem pushFront_agree (hh : Heap.Related (Renamed f U) h h') (n : Ptr) :
    Agree (Heap.Related (Renamed f U)) (pushFront h n) (pushFront h' n) := by
  refine (hh.getNext _).bind fun first _ hfirst => ?_
  subst hfirst
  refine (hh.setPrev _ _).bind fun h₁ h₁' hh₁ => ?_
  refine (hh₁.setNext _ _).bind fun h₂ h₂' hh₂ => ?_
  exact (hh₂.setPrev _ _).bind fun h₃ h₃' hh₃ => hh₃.setNext _ _

theorem promote_agree (hh : Heap.Related (Renamed f U) h h') (n : Ptr) :
    Agree (Heap.Related (Renamed f U)) (promote h n) (promote h' n) := by
  refine (isInList_agree hh n).bind fun b _ hb => ?_
  subst hb
  refine Agree.ite Iff.rfl (fun _ => ?_) (fun _ => .ok hh)
  exact (delinkChecked_agree hh n).bind fun h₁ h₁' hh₁ => pushFront_agree hh₁ n

/-- The loop of `evict` stops at the same node. -/
theorem dropTombs_agree (hf : Renaming f U) (fuel : ℕ) (hh : Heap.Related (Renamed f U) h h') :
    Agree (fun r r' => r.1 = r'.1 ∧ Heap.Related (Renamed f U) r.2 r'.2) (dropTombs fuel h)
    (dropTombs fuel h') := by
  induction fuel generalizing h h' with
  | zero => exact .error _
  | succ fuel ih =>
    refine (hh.getPrev _).bind fun m _ hm => ?_
    subst hm
    refine (keyOf_agree hh m).bind fun k k' hk => ?_
    refine Agree.ite ?_ (fun _ => ?_) (fun _ => .ok ⟨rfl, hh⟩)
    · rw [hk.2, hf.tomb_iff hk.1]
    · exact (delinkChecked_agree hh m).bind fun h₁ h₁' hh₁ => ih (hh₁.free m)

/-! ### Maps with renamed keys -/

variable {m m' : Finmap fun _ : ℕ => HashMapValue (Option α)} {e : HashMapValue (Option α)}

theorem SameEntries.insert (hf : Renaming f U) (hm : SameEntries f U m m') (hk : k ∈ U)
    (e : HashMapValue (Option α)) : SameEntries f U (m.insert k e) (m'.insert (f k) e) := by
  intro k' hk'
  by_cases h : k' = k
  · subst h; rw [Finmap.lookup_insert, Finmap.lookup_insert]
  · rw [Finmap.lookup_insert_of_ne _ h, Finmap.lookup_insert_of_ne _ fun h' => h (hf.inj hk' hk h')]
    exact hm k' hk'

theorem SameEntries.erase (hf : Renaming f U) (hm : SameEntries f U m m') (hk : k ∈ U) :
    SameEntries f U (m.erase k) (m'.erase (f k)) := by
  intro k' hk'
  by_cases h : k' = k
  · subst h; rw [Finmap.lookup_erase, Finmap.lookup_erase]
  · rw [Finmap.lookup_erase_ne h, Finmap.lookup_erase_ne fun h' => h (hf.inj hk' hk h')]
    exact hm k' hk'

/-! ### The calls -/

/-- What is compared after a call: the answer, and the shards. -/
abbrev Alike {B : Type} (f : ℕ → ℕ) (U : Set ℕ) (r r' : B × Shard α) : Prop :=
  r.1 = r'.1 ∧ Twins f U r.2 r'.2

theorem twins (hh : Heap.Related (Renamed f U) σ.heap h') (hm : SameEntries f U σ.m_map m')
    (hp : Plain σ) :
    Twins f U σ { σ with heap := h', m_map := m' } := ⟨hh, hm, rfl, hp⟩

theorem Twins.evict (hf : Renaming f U) (ht : Twins f U σ σ') {held : Option ℕ}
    (hheld : ∀ k ∈ held, k ∈ U) :
    Agree (Alike f U) (σ.evict held) (σ'.evict (held.map f)) := by
  obtain ⟨hh, hm, hrest, hp⟩ := ht
  rw [hrest]
  generalize σ'.heap = h' at hh ⊢
  generalize σ'.m_map = m' at hm ⊢
  refine (dropTombs_agree hf _ hh).bind ?_
  rintro ⟨n, h₁⟩ ⟨n', h₁'⟩ ⟨hn, hh₁⟩
  obtain rfl : n = n' := hn
  refine Agree.ite Iff.rfl (fun _ => .ok ⟨rfl, twins hh₁ hm ⟨hp.1, hp.2, hp.3, hp.4, hp.5⟩⟩)
    (fun _ => ?_)
  refine (delinkChecked_agree hh₁ n).bind fun h₂ h₂' hh₂ => ?_
  refine (keyOf_agree hh₂ n).bind ?_
  rintro k k' ⟨hk, rfl⟩
  simp only [hm k hk]
  cases σ.m_map.lookup k with
  | none => exact .ok ⟨rfl, twins hh₂ hm ⟨hp.1, hp.2, hp.3, hp.4, hp.5⟩⟩
  | some e =>
    refine Agree.ite ?_ (fun _ => .error _)
      (fun _ => .ok ⟨rfl, twins (hh₂.free n) (hm.erase hf hk) ⟨hp.1, hp.2, hp.3, hp.4, hp.5⟩⟩)
    cases held with
    | none => simp
    | some k₁ => simpa using ⟨fun h => by rw [h], fun h => hf.inj (hheld k₁ rfl) hk h⟩

theorem Twins.plain' (ht : Twins f U σ σ') : Plain σ' := by
  obtain ⟨-, -, hrest, hp⟩ := ht
  rw [hrest]
  exact ⟨hp.1, hp.2, hp.3, hp.4, hp.5⟩

theorem Twins.size (ht : Twins f U σ σ') : σ'.m_size = σ.m_size := by rw [ht.rest]

theorem Twins.maxSize (ht : Twins f U σ σ') : σ'.m_maxSize = σ.m_maxSize := by rw [ht.rest]

theorem Twins.withHeap (ht : Twins f U σ σ') (hh : Heap.Related (Renamed f U) h h') :
    Twins f U { σ with heap := h } { σ' with heap := h' } := by
  obtain ⟨-, hm, hrest, hp⟩ := ht
  rw [hrest]
  exact twins hh hm ⟨hp.1, hp.2, hp.3, hp.4, hp.5⟩

theorem Twins.findWith (ht : Twins f U σ σ') (hk : k ∈ U) (lock : Bool) :
    Agree (Alike f U) (σ.findWith lock k) (σ'.findWith lock (f k)) := by
  have hp := ht.plain
  have hp' := ht.plain'
  simp only [Shard.findWith, Shard.findSlow, hp.tier_ready, hp.fast_hash_ready,
    hp.fast_hash_construct, hp.curve_flag, hp'.tier_ready, hp'.fast_hash_ready,
    hp'.fast_hash_construct, hp'.curve_flag, Bool.or_self, Bool.false_eq_true, if_false,
    not_false_eq_true, true_or, assert_of, ok_bind, ht.map k hk]
  cases σ.m_map.lookup k with
  | none => exact .ok ⟨rfl, ht⟩
  | some e =>
    refine Agree.ite Iff.rfl (fun _ => ?_) (fun _ => .ok ⟨rfl, ht⟩)
    exact (promote_agree ht.heap _).bind fun h₁ h₁' hh₁ => .ok ⟨rfl, ht.withHeap hh₁⟩

theorem Twins.delete_key (hf : Renaming f U) (ht : Twins f U σ σ') (hk : k ∈ U) :
    Agree (Twins f U) (σ.delete_key k) (σ'.delete_key (f k)) := by
  have hp := ht.plain
  have hp' := ht.plain'
  unfold Shard.delete_key
  rw [ht.map k hk]
  cases σ.m_map.lookup k with
  | none => exact .ok ht
  | some e =>
    -- in plain mode the first two branches are not taken
    refine Agree.ite (by simp [hp.3, hp'.3]) (fun h => absurd h (by simp [hp.3])) fun _ => ?_
    refine Agree.ite (by simp [hp.1, hp.2, hp'.1, hp'.2]) (fun h => absurd h (by simp [hp.1, hp.2]))
      fun _ => ?_
    refine (isInList_agree ht.heap _).bind ?_
    rintro b _ rfl
    refine Agree.ite Iff.rfl (fun _ => ?_) (fun _ => .ok ht)
    refine (delinkChecked_agree ht.heap _).bind fun h₁ h₁' hh₁ => .ok ?_
    obtain ⟨-, hm, hrest, hp⟩ := ht
    rw [hrest]
    exact twins (hh₁.free _) (hm.erase hf hk) ⟨hp.1, hp.2, hp.3, hp.4, hp.5⟩

/-! ### `insert` -/

theorem Twins.newNode (ht : Twins f U σ σ') (hk : k ∈ U) :
    Twins f U (σ.newNode k) (σ'.newNode (f k)) := by
  obtain ⟨hh, hm, hrest, hp⟩ := ht
  rw [hrest]
  generalize σ'.heap = h' at hh ⊢
  generalize σ'.m_map = m' at hm ⊢
  exact twins (hh.put _ (.some ⟨rfl, rfl, hk, rfl, rfl⟩)) hm ⟨hp.1, hp.2, hp.3, hp.4, hp.5⟩

theorem Twins.insertMap (hf : Renaming f U) (ht : Twins f U σ σ') (hk : k ∈ U) (v : Option α)
    (n : Ptr) :
    Alike f U (σ.insertMap k v n) (σ'.insertMap (f k) v n) := by
  have htwins : Twins f U { σ with m_map := σ.m_map.insert k ⟨v, n⟩ }
      { σ' with m_map := σ'.m_map.insert (f k) ⟨v, n⟩ } := by
    obtain ⟨hh, hm, hrest, hp⟩ := ht
    have hm' := hm.insert hf hk ⟨v, n⟩
    rw [hrest]
    exact twins hh hm' ⟨hp.1, hp.2, hp.3, hp.4, hp.5⟩
  unfold Shard.insertMap
  rw [ht.map k hk]
  cases σ.m_map.lookup k with
  | some e => exact ⟨rfl, htwins⟩
  | none =>
    dsimp only
    rw [if_neg (by simp [ht.plain.3]), if_neg (by simp [ht.plain'.3])]
    exact ⟨rfl, htwins⟩

theorem Twins.insertEvict (hf : Renaming f U) (ht : Twins f U σ σ') (hk : k ∈ U) :
    Agree (Alike f U) (σ.insertEvict k) (σ'.insertEvict (f k)) := by
  have hheld : ∀ x ∈ some k, x ∈ U := by simpa using hk
  have hev := ht.evict hf hheld
  simp only [Shard.insertEvict, ht.size, ht.maxSize]
  refine Agree.ite Iff.rfl (fun _ => ?_) (fun _ => .ok ⟨rfl, ht⟩)
  exact hev.bind fun r r' hr => .ok ⟨by rw [hr.1], hr.2⟩

theorem Twins.insertLink (ht : Twins f U σ σ') (k k' : ℕ) (n : Ptr) :
    Agree (Alike f U) (σ.insertLink k n) (σ'.insertLink k' n) := by
  have hp := ht.plain
  have hp' := ht.plain'
  unfold Shard.insertLink
  refine Agree.ite (by simp [hp.4, hp'.4]) (fun h => absurd h (by simp [hp.4])) fun _ => ?_
  refine Agree.ite (by simp [hp.5, hp'.5]) (fun h => absurd h (by simp [hp.5])) fun _ => ?_
  exact (pushFront_agree ht.heap n).bind fun h₁ h₁' hh₁ => .ok ⟨rfl, ht.withHeap hh₁⟩

theorem Twins.withSize (ht : Twins f U σ σ') (s : ℕ) :
    Twins f U { σ with m_size := s } { σ' with m_size := s } := by
  obtain ⟨hh, hm, hrest, hp⟩ := ht
  rw [hrest]
  exact twins hh hm ⟨hp.1, hp.2, hp.3, hp.4, hp.5⟩

theorem Twins.correct (hf : Renaming f U) (ht : Twins f U σ σ') (s : ℕ) :
    Agree (Twins f U) (σ.correct s) (σ'.correct s) := by
  simp only [Shard.correct, ht.maxSize]
  refine Agree.ite Iff.rfl (fun _ => ?_) (fun _ => .ok ht)
  have hheld : ∀ x ∈ (none : Option ℕ), x ∈ U := nofun
  refine (ht.evict hf hheld).bind fun r r' hr => .ok ?_
  rw [← hr.1, hr.2.size]
  split
  · exact hr.2.withSize _
  · exact hr.2

theorem Twins.insertSettle (hf : Renaming f U) (ht : Twins f U σ σ') (s : ℕ) (done : Bool) :
    Agree (Twins f U) (σ.insertSettle s done) (σ'.insertSettle s done) := by
  cases done with
  | true => exact ht.correct hf s
  | false =>
    simp only [Shard.insertSettle, Shard.count, Bool.false_eq_true, if_false, ht.size]
    exact (ht.withSize _).correct hf _

theorem Twins.insert (hf : Renaming f U) (ht : Twins f U σ σ') (hk : k ∈ U) (v : Option α) :
    Agree (Alike f U) (σ.insert k v) (σ'.insert (f k) v) := by
  have hno : σ'.tier_no_insert = σ.tier_no_insert := by rw [ht.rest]
  have hfresh : σ'.fresh = σ.fresh := by rw [ht.rest]
  simp only [Shard.insert, hno, hfresh]
  refine Agree.ite Iff.rfl (fun _ => .ok ⟨rfl, ht⟩) (fun _ => ?_)
  obtain ⟨hb, ht₁⟩ := (ht.newNode hk).insertMap hf hk v (.node σ.fresh)
  rw [← hb]
  refine Agree.ite Iff.rfl (fun _ => .ok ⟨rfl, ht₁⟩) (fun _ => ?_)
  refine (ht₁.insertEvict hf hk).bind ?_
  rintro ⟨r, τ⟩ ⟨r', τ'⟩ ⟨hr, hτ⟩
  obtain rfl : r = r' := hr
  refine (hτ.insertLink k (f k) _).bind ?_
  rintro ⟨b, τ₁⟩ ⟨b', τ₁'⟩ ⟨hb, hτ₁⟩
  obtain rfl : b = b' := hb
  refine Agree.ite Iff.rfl (fun _ => .ok ⟨rfl, hτ₁⟩) (fun _ => ?_)
  exact (hτ₁.insertSettle hf _ _).bind fun τ₂ τ₂' hτ₂ => .ok ⟨rfl, hτ₂⟩

/-- A call and the renamed one. -/
theorem Twins.sized (κ : FHList) (hf : Renaming f U) (ht : Twins f U σ σ') (c : Bool × FHCall α)
    (hc : ∃ k ∈ U, c.2.key? = some k) :
    Agree (Alike f U) (κ.sized σ c) (κ.sized σ' (c.1, c.2.rename f)) := by
  obtain ⟨lock, c⟩ := c
  obtain ⟨k, hk, hc⟩ := hc
  simp only [FHList.sized, FHList.call_eq]
  refine Agree.bind (R := Alike f U) ?_ fun r r' hr => .ok ⟨by rw [hr.1, hr.2.rest], hr.2⟩
  cases c <;> cases hc
  · exact (ht.findWith hk _).bind fun r r' hr => .ok ⟨by rw [hr.1], hr.2⟩
  · exact (ht.insert hf hk _).bind fun r r' hr => .ok ⟨by rw [hr.1], hr.2⟩
  · exact (ht.delete_key hf hk).bind fun τ τ' hτ => .ok ⟨rfl, hτ⟩

/-- The constructor makes twins: the sentinels have `SPECIAL_KEY`. -/
theorem twins_init (hf : Renaming f U) (N : ℕ) : Twins f U (init N : Shard α) (init N) := by
  refine ⟨?_, fun k _ => rfl, rfl, ⟨rfl, rfl, rfl, rfl, rfl⟩⟩
  have hempty : Heap.Related (P := Ptr) (Renamed f U) Heap.empty Heap.empty :=
    fun p => Option.Rel.none
  have hs : Renamed f U ⟨SPECIAL_KEY, 0⟩ ⟨SPECIAL_KEY, 0⟩ := ⟨hf.special.1, hf.special.2.symm, rfl⟩
  exact (((hempty.put _ (.some ⟨rfl, rfl, hs⟩)).put _ (.some ⟨rfl, rfl, hs⟩)).put
    _ (.some ⟨rfl, rfl, hs⟩)).put _
    (.some ⟨rfl, rfl, hs⟩)

end Shard

/-- A call, over keys of the client that are not `TOMB_KEY` before or after the renaming. -/
def FHCall.Untombed (g : ℕ → ℕ) (c : FHCall α) : Prop :=
  ∃ k ∈ c.key?, ClientKey k ∧ k ≠ TOMB_KEY ∧ g k ≠ TOMB_KEY

/-- A renaming of the keys of the client, extended to the keys with a meaning of their own. -/
def fixing (g : ℕ → ℕ) (k : ℕ) : ℕ := if k ≤ TOMB_KEY then k else g k

theorem renaming_fixing {g : ℕ → ℕ} (hmaps : ∀ k, ClientKey k → ClientKey (g k))
    (hinj : Set.InjOn g { k | ClientKey k }) :
    Shard.Renaming (fixing g) { k | k ≤ TOMB_KEY ∨ (ClientKey k ∧ g k ≠ TOMB_KEY) } := by
  refine ⟨fun k hk k' hk' h => ?_, ⟨Or.inl (by decide), rfl⟩, ⟨Or.inl le_rfl, rfl⟩⟩
  -- a key of the client does not become one of the two others
  have hnew : ∀ k, ClientKey k ∧ g k ≠ TOMB_KEY → ¬ g k ≤ TOMB_KEY := fun k hk hle => by
    have := (hmaps k hk.1).1
    have := hk.2
    unfold TOMB_KEY SPECIAL_KEY at *
    omega
  by_cases h1 : k ≤ TOMB_KEY <;> by_cases h2 : k' ≤ TOMB_KEY
  · simpa [fixing, h1, h2] using h
  · simp only [fixing, h1, h2, if_true, if_false] at h
    exact absurd (h ▸ h1) (hnew k' (hk'.resolve_left h2))
  · simp only [fixing, h1, h2, if_true, if_false] at h
    exact absurd (h ▸ h2) (hnew k (hk.resolve_left h1))
  · simp only [fixing, h1, h2, if_false] at h
    exact hinj (hk.resolve_left h1).1 (hk'.resolve_left h2).1 h

theorem FHCall.Untombed.rename {g : ℕ → ℕ} {c : FHCall α} (hc : c.Untombed g) :
    c.rename (fixing g) = c.rename g := by
  obtain ⟨k, hk, hclient, hne, -⟩ := hc
  have hfix : fixing g k = g k := if_neg fun hle => by
    have := hclient.1
    unfold TOMB_KEY SPECIAL_KEY at *
    omega
  cases c <;> cases hk <;> simp only [FHCall.rename, hfix]

/-- Running renamed calls gives the same answers, insertion results and sizes, or ends in the same
    fault, if no call has `TOMB_KEY` before or after the renaming. -/
theorem keys_are_interchangeable (κ : FHList) (N : ℕ) {g : ℕ → ℕ}
    (hmaps : ∀ k, ClientKey k → ClientKey (g k)) (hinj : Set.InjOn g { k | ClientKey k })
    {cs : List (Bool × FHCall α)} (hcs : ∀ c ∈ cs, c.2.Untombed g) :
    (exec κ.sized (Shard.init N) (cs.map fun c => (c.1, c.2.rename g))).map Prod.fst =
      (exec κ.sized (Shard.init N) cs).map Prod.fst := by
  have hf := renaming_fixing hmaps hinj
  have hcalls : cs.map (fun c => (c.1, c.2.rename g)) = cs.map fun c =>
    (c.1, c.2.rename (fixing g)) :=
    List.map_congr_left fun c hc => by rw [(hcs c hc).rename]
  have hagree : Agree (fun r r' => r.1 = r'.1 ∧
        Shard.Twins (fixing g) { k | k ≤ TOMB_KEY ∨ ClientKey k ∧ g k ≠ TOMB_KEY } r.2 r'.2)
      (exec κ.sized (Shard.init N : Shard α) cs)
      (exec κ.sized (Shard.init N) (cs.map fun c => (c.1, c.2.rename (fixing g)))) := by
    refine Agree.exec (fun σ σ' c hc ht => ?_) hcs (Shard.twins_init hf N)
    obtain ⟨k, hk, hclient, -, hne⟩ := hc
    exact ht.sized κ hf c ⟨k, Or.inr ⟨hclient, hne⟩, hk⟩
  rw [hcalls]
  exact (hagree.map_eq fun r r' hr => hr.1).symm

/-- Two keys exchanged. -/
theorem keys_are_interchangeable_three :
    (exec FHList.LRU_FH.sized (Shard.init 1) [(true, .insert 4 (some 7)), (true, .find 4),
      (true, .insert 3 (some 8)), (true, .find 4)]).map Prod.fst =
    (exec FHList.LRU_FH.sized (Shard.init 1) [(true, .insert 3 (some 7)), (true, .find 3),
      (true, .insert 4 (some 8)), (true, .find 3)]).map Prod.fst ∧
    (exec FHList.LRU_FH.sized (Shard.init 1) [(true, .insert 3 (some 7)), (true, .find 3),
      (true, .insert 4 (some 8)), (true, .find 3)]).map Prod.fst =
    .ok [(.inserted true, 1), (.found (some (some 7)), 1), (.inserted true, 1),
      (.found none, 1)] := by
  have hcs : ∀ c ∈ [(true, FHCall.insert 3 (some 7)), (true, .find 3), (true, .insert 4 (some 8)),
      (true, .find 3)],
      c.2.Untombed (Equiv.swap 3 4) := by
    intro c hc
    simp only [List.mem_cons, List.not_mem_nil, or_false] at hc
    rcases hc with rfl | rfl | rfl | rfl <;> exact ⟨_, rfl, by decide, by decide, by decide⟩
  refine ⟨keys_are_interchangeable (α := ℕ) .LRU_FH 1 (fun k hk => ?_)
    (Equiv.injective _).injOn hcs, rfl⟩
  rw [Equiv.swap_apply_def]
  split
  · decide
  · split
    · decide
    · exact hk

/-- With 3 renamed to `TOMB_KEY`: `evict` discards the node and keeps the entry, so that nothing has
    made room and the size is 2 in a shard of one place. -/
theorem tomb_key_is_special :
    (exec FHList.LRU_FH.sized (Shard.init 1) [(true, .insert 3 (some 7)),
      (true, .insert 4 (some 8)), (false, .find 3)]).map Prod.fst =
      .ok [(.inserted true, 1), (.inserted true, 1), (.found none, 1)] ∧
    (exec FHList.LRU_FH.sized (Shard.init 1) [(true, .insert 1 (some 7)),
      (true, .insert 4 (some 8)), (false, .find 1)]).map Prod.fst =
        .ok [(.inserted true, 1), (.inserted true, 2), (.found (some (some 7)), 2)] :=
  ⟨rfl, rfl⟩

end FrozenHot
