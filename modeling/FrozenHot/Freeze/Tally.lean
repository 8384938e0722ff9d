import FrozenHot.Freeze.Crowd
import Mathlib.Data.Int.ModEq

/-! What the steps of a crowd do to the keys.

    The nodes are left out: the lists are lists of keys and the map sends keys to values. The keys
    on the lists and those held by calls in flight are the keys of the map, and what `m_size`
    differs from the length of the lists by is what the calls in flight owe. A call that is refused
    can be taken out of a run, step by step, and nothing else changes. -/

namespace FrozenHot
open Schemes

variable {α : Type}

/-! ### The keys of a map -/

/-- The keys of `m` are those of `ks`, each once. -/
structure Keyed (m : ℕ → Option (Option α)) (ks : List ℕ) : Prop where
  nodup : ks.Nodup
  mem : ∀ k, (m k).isSome = true ↔ k ∈ ks
  valid : ∀ k ∈ ks, ValidKey k

section
variable {m : ℕ → Option (Option α)} {ks ks' : List ℕ} {k : ℕ}

theorem Keyed.perm (h : Keyed m ks) (hp : ks.Perm ks') : Keyed m ks' :=
  ⟨hp.nodup_iff.mp h.nodup, fun k => (h.mem k).trans hp.mem_iff,
    fun k hk => h.valid k (hp.mem_iff.mpr hk)⟩

theorem Keyed.insert (h : Keyed m ks) (hk : m k = none) (hv : ValidKey k) (v : Option α) :
    Keyed (Function.update m k (some v)) (k :: ks) := by
  have hno : k ∉ ks := fun hc => by simpa [hk] using (h.mem k).mpr hc
  refine ⟨List.nodup_cons.mpr ⟨hno, h.nodup⟩, fun k' => ?_, fun k' hk' => ?_⟩
  · by_cases hkk : k' = k
    · subst hkk; simp
    · simp [h.mem, hkk]
  · exact (List.mem_cons.mp hk').elim (fun e => e ▸ hv) (h.valid k')

theorem Keyed.overwrite (h : Keyed m ks) (hk : m k ≠ none) (v : Option α) :
    Keyed (Function.update m k (some v)) ks := by
  refine ⟨h.nodup, fun k' => ?_, h.valid⟩
  by_cases hkk : k' = k
  · subst hkk
    simpa using (h.mem k').mp (Option.isSome_iff_ne_none.mpr hk)
  · rw [Function.update_of_ne hkk, h.mem]

theorem Keyed.erase (h : Keyed m (k :: ks)) : Keyed (Function.update m k none) ks := by
  obtain ⟨hno, hnd⟩ := List.nodup_cons.mp h.nodup
  refine ⟨hnd, fun k' => ?_, fun k' hk' => h.valid k' (List.mem_cons_of_mem _ hk')⟩
  by_cases hkk : k' = k
  · subst hkk; simpa using hno
  · rw [Function.update_of_ne hkk, h.mem]; simp [hkk]

theorem Keyed.length_le (h : Keyed m ks) : ks.length ≤ 2 ^ 32 := by
  have hsub : ks.toFinset ⊆ Finset.range (2 ^ 32) := fun k hk =>
    Finset.mem_range.mpr (h.valid k (List.mem_toFinset.mp hk)).2
  have hcard := Finset.card_le_card hsub
  rwa [List.toFinset_card_of_nodup h.nodup, Finset.card_range] at hcard

end

/-! ### The machine over keys -/

/-- The keys on the lists and in the map. -/
structure Tally (α : Type) where
  frozen : List ℕ
  main : List ℕ
  m_map : ℕ → Option (Option α)
  m_size : ℕ
  m_maxSize : ℕ
  tier_ready : Bool
  tier_no_insert : Bool
  fast_hash_construct : Bool

/-- The keys, with calls of `insert` in flight. -/
abbrev KeyCrowd (α : Type) := Busy (Tally α) (InsertAt α Unit)

namespace Tally

def init (maxSize : ℕ) : Tally α := ⟨[], [], fun _ => none, 0, maxSize, false, false, false⟩

def evict (a : Tally α) : Bool × Tally α :=
  match a.main.getLast? with
  | none => (false, a)
  | some k => (true, { a with main := a.main.dropLast, m_map := Function.update a.m_map k none })

/-- Evict if `full` says so. -/
def evictIf (full : Prop) [Decidable full] (a : Tally α) : Bool × Tally α :=
  if full then a.evict else (false, a)

/-- The next step of a call. -/
def act (a : Tally α) : InsertAt α Unit → Outcome × Option (InsertAt α Unit) × Tally α
  | .entered key value =>
    let b := { a with m_map := Function.update a.m_map key (some value) }
    if a.m_map key = none then (.running, some (.mapped key ()), b) else (.present, none, b)
  | .mapped key _ =>
    let r := a.evictIf (a.m_size ≥ a.m_maxSize)
    (.running, some (.evicted key () a.m_size r.1), r.2)
  | .evicted key _ s evictionDone =>
    if a.tier_no_insert then (.refused, none, { a with m_map := Function.update a.m_map key none })
    else (.running, some (.linked s evictionDone), { a with main := key :: a.main })
  | .linked s evictionDone =>
    (.running, some (.counted (if evictionDone then s else a.m_size)),
      { a with m_size := if evictionDone then a.m_size else sizeInc a.m_size })
  | .counted s =>
    let r := a.evictIf (s > a.m_maxSize)
    (.inserted, none, { r.2 with m_size := if r.1 then sizeDec a.m_size else a.m_size })

end Tally

namespace KeyCrowd

def init (maxSize : ℕ) : KeyCrowd α := ⟨Tally.init maxSize, []⟩

def step (s : KeyCrowd α) : CrowdStep α → Except Fault (Outcome × KeyCrowd α)
  | .enter i key value =>
    if s.shared.tier_no_insert then return (.refused, s)
    else return (.running, { s with calls := s.calls.add i (.entered key value) })
  | .go i => s.go (fun a c => .ok (a.act c)) i
  | .splice =>
    if s.shared.frozen = [] then return (.running, { s with shared := { s.shared with
      frozen := s.shared.main, main := [], fast_hash_construct := true, tier_no_insert := true } })
    else throw .assertion
  | .rest =>
    return (.running, { s with shared := { s.shared with
      tier_ready := true, fast_hash_construct := false } })
  | .deconstruct =>
    if s.shared.frozen = [] then return (.running, s)
    else return (.running, { s with shared := { s.shared with
      frozen := [], main := s.shared.frozen ++ s.shared.main
      tier_no_insert := if s.shared.tier_ready then false else s.shared.tier_no_insert
      tier_ready := false } })

def Gentle (s : KeyCrowd α) (e : CrowdStep α) : Prop :=
  e.Enabled s.calls s.shared.fast_hash_construct ∧ (e = .splice → ∀ x ∈ s.calls, x.2.inDebt = false)

end KeyCrowd

/-! ### The invariant -/

namespace Tally
variable {a b : Tally α} {A B : Pool (InsertAt α Unit)} {c d : InsertAt α Unit} {i k : ℕ}

/-- The keys whose accessors are held. -/
def held (p : Pool (InsertAt α Unit)) : List ℕ := p.filterMap (·.2.held)

/-- What a call still has to add to `m_size`. -/
def owes : InsertAt α Unit → ℤ
  | .evicted _ _ _ true => -1
  | .linked _ false => 1
  | _ => 0

/-- The keys of the map are those on the lists and those held by the calls `p`, and `m_size` is the
    length of the lists but for what the calls owe. -/
structure Steady (a : Tally α) (p : Pool (InsertAt α Unit)) : Prop where
  distinct : p.Distinct
  keyed : Keyed a.m_map (a.frozen ++ a.main ++ held p)
  entered : ∀ x ∈ p, ∀ key value, x.2 = .entered key value → ValidKey key
  tier : a.tier_no_insert = true → a.main = [] ∧ ∀ x ∈ p, x.2.inDebt = false
  constructing : a.fast_hash_construct = true → a.tier_no_insert = true
  ready : a.tier_no_insert = true → a.fast_hash_construct = true ∨ a.tier_ready = true
  small : a.m_size < 2 ^ 64
  size : (a.m_size + Pool.total owes p : ℤ) ≡ (a.frozen ++ a.main).length [ZMOD 2 ^ 64]

theorem steady_init (maxSize : ℕ) : Steady (init maxSize : Tally α) [] :=
  ⟨List.nodup_nil, ⟨List.nodup_nil, fun k => by simp [init, held], by simp [init, held]⟩,
    by simp, fun h => by simp [init] at h, fun h => by simp [init] at h,
    fun h => by simp [init] at h, by simp [init], by simp [init]⟩

/-- What an eviction does. -/
theorem evict_cases (a : Tally α) : (a.main = [] ∧ a.evict = (false, a)) ∨
    ∃ M k, a.main = M ++ [k] ∧
      a.evict = (true, { a with main := M, m_map := Function.update a.m_map k none }) := by
  rcases List.eq_nil_or_concat a.main with h | ⟨M, k, h⟩
  · exact Or.inl ⟨h, by simp [evict, h]⟩
  · rw [List.concat_eq_append] at h
    exact Or.inr ⟨M, k, h, by simp [evict, h]⟩

theorem evictIf_cases (full : Prop) [Decidable full] (a : Tally α) : a.evictIf full = (false, a) ∨
    ∃ M k, a.main = M ++ [k] ∧
      a.evictIf full = (true, { a with main := M, m_map := Function.update a.m_map k none }) := by
  unfold evictIf
  split
  · exact (evict_cases a).imp_left And.right
  · exact Or.inl rfl

theorem held_middle (i : ℕ) (c : InsertAt α Unit) (A B : Pool (InsertAt α Unit)) :
    (held (A ++ (i, c) :: B)).Perm (c.held.toList ++ held (A ++ B)) := by
  cases hc : c.held with
  | none => simp [held, hc]
  | some k => simp [held, hc]

/-- The keys, with one call singled out. -/
theorem keys_middle (F M : List ℕ) (i : ℕ) (c : InsertAt α Unit) (A B : Pool (InsertAt α Unit)) :
    (F ++ M ++ held (A ++ (i, c) :: B)).Perm (c.held.toList ++ (F ++ M ++ held (A ++ B))) :=
  ((held_middle i c A B).append_left _).trans (List.perm_append_comm_assoc _ _ _)

/-- The part of the invariant that a step of the call at `c` changes; `p` are the other calls. -/
structure Apart (c : InsertAt α Unit) (p : Pool (InsertAt α Unit)) (a : Tally α) : Prop where
  keyed : Keyed a.m_map (c.held.toList ++ (a.frozen ++ a.main ++ held p))
  entered : ∀ key value, c = .entered key value → ValidKey key
  tier : a.tier_no_insert = true → a.main = [] ∧ c.inDebt = false
  small : a.m_size < 2 ^ 64
  size : (a.m_size + (Pool.total owes p + owes c) : ℤ) ≡ (a.frozen ++ a.main).length [ZMOD 2 ^ 64]

theorem Steady.apart (hs : Steady a (A ++ (i, c) :: B)) : Apart c (A ++ B) a := by
  have hmem : (i, c) ∈ A ++ (i, c) :: B := by simp
  have hsize := hs.size
  rw [Pool.total_middle] at hsize
  exact ⟨hs.keyed.perm (keys_middle _ _ _ _ _ _), hs.entered _ hmem,
    fun ht => ⟨(hs.tier ht).1, (hs.tier ht).2 _ hmem⟩, hs.small, hsize⟩

/-- The flags that steps of calls leave alone. -/
def SameFlags (a b : Tally α) : Prop := b.tier_no_insert = a.tier_no_insert ∧
  b.fast_hash_construct = a.fast_hash_construct ∧ b.tier_ready = a.tier_ready

/-- The call goes on to `d`. -/
theorem Steady.goes_on (hs : Steady a (A ++ (i, c) :: B)) (h : Apart d (A ++ B) b)
    (hf : SameFlags a b) :
    Steady b (A ++ (i, d) :: B) := by
  obtain ⟨h1, h2, h3⟩ := hf
  have hsub : ∀ x ∈ A ++ B, x ∈ A ++ (i, c) :: B := fun x hx => by
    simp only [List.mem_append, List.mem_cons] at hx ⊢; tauto
  have hcase : ∀ x ∈ A ++ (i, d) :: B, x = (i, d) ∨ x ∈ A ++ B := fun x hx =>
    List.mem_cons.mp (List.perm_middle.mem_iff.mp hx)
  refine ⟨Pool.distinct_middle.mpr (Pool.distinct_middle.mp hs.distinct),
    h.keyed.perm (keys_middle _ _ _ _ _ _).symm, fun x hx => ?_,
    fun ht => ⟨(h.tier ht).1, fun x hx => ?_⟩, ?_, ?_, h.small, ?_⟩
  · rcases hcase x hx with rfl | hx
    · exact h.entered
    · exact hs.entered x (hsub x hx)
  · rcases hcase x hx with rfl | hx
    · exact (h.tier ht).2
    · exact (hs.tier (h1 ▸ ht)).2 x (hsub x hx)
  · rw [h2, h1]; exact hs.constructing
  · rw [h2, h1, h3]; exact hs.ready
  · rw [Pool.total_middle]; exact h.size

/-- The call returns; what it leaves owes nothing and holds nothing. -/
theorem Steady.returns (hs : Steady a (A ++ (i, c) :: B)) (h : Apart (.counted 0) (A ++ B) b)
    (hf : SameFlags a b) : Steady b (A ++ B) := by
  obtain ⟨h1, h2, h3⟩ := hf
  have hsub : ∀ x ∈ A ++ B, x ∈ A ++ (i, c) :: B := fun x hx => by
    simp only [List.mem_append, List.mem_cons] at hx ⊢; tauto
  refine ⟨(Pool.distinct_middle.mp hs.distinct).2, h.keyed, fun x hx => hs.entered x (hsub x hx),
    fun ht => ⟨(h.tier ht).1, fun x hx => (hs.tier (h1 ▸ ht)).2 x (hsub x hx)⟩, ?_, ?_, h.small, ?_⟩
  · rw [h2, h1]; exact hs.constructing
  · rw [h2, h1, h3]; exact hs.ready
  · simpa [owes] using h.size

/-! ### The steps of a call -/

variable {p : Pool (InsertAt α Unit)}

theorem sizeInc_modEq (n : ℕ) : (sizeInc n : ℤ) ≡ n + 1 [ZMOD 2 ^ 64] := by
  have h : (sizeInc n : ℤ) = (n + 1) % 2 ^ 64 := by simp [sizeInc]
  rw [h]
  exact Int.mod_modEq _ _

theorem sizeDec_modEq (n : ℕ) : (sizeDec n : ℤ) ≡ n - 1 [ZMOD 2 ^ 64] := by
  unfold sizeDec
  split
  · rename_i h
    rw [h]
    rfl
  · rename_i h
    rw [Nat.cast_sub (by omega : 1 ≤ n)]
    rfl

theorem sizeDec_lt {n : ℕ} (hn : n < 2 ^ 64) : sizeDec n < 2 ^ 64 := by
  unfold sizeDec; split <;> omega

/-- A place that holds no key, owes nothing and has no eviction to make good. -/
theorem Apart.idle (h : Apart c p a) (hd : d.held = c.held)
    (he : ∀ key value, d ≠ .entered key value) (ho : owes d = owes c) (hi : d.inDebt = c.inDebt) :
    Apart d p a :=
  ⟨by rw [hd]; exact h.keyed, fun key value hc => (he key value hc).elim, by rw [hi]; exact h.tier,
    h.small, by rw [ho]; exact h.size⟩

/-- An eviction takes a key off the main list and out of the map. -/
theorem Apart.evict (h : Apart c p a) {M : List ℕ} (hM : a.main = M ++ [k]) :
    Keyed (Function.update a.m_map k none) (c.held.toList ++ (a.frozen ++ M ++ held p)) ∧
    a.tier_no_insert = false ∧
    (a.m_size + (Pool.total owes p + owes c) - 1 : ℤ) ≡ (a.frozen ++ M).length [ZMOD 2 ^ 64] := by
  refine ⟨?_, ?_, ?_⟩
  · have hp : (c.held.toList ++ (a.frozen ++ a.main ++ held p)).Perm
        (k :: (c.held.toList ++ (a.frozen ++ M ++ held p))) := by
      rw [hM]
      simpa using @List.perm_middle ℕ k (c.held.toList ++ (a.frozen ++ M)) (held p)
    exact (h.keyed.perm hp).erase
  · cases ht : a.tier_no_insert with
    | false => rfl
    | true => have := (h.tier ht).1; rw [hM] at this; simp at this
  · have := h.size.sub (Int.ModEq.refl 1)
    rw [hM] at this
    simpa [← add_assoc] using this

/-- The map insertion. -/
theorem Apart.entered_act {key : ℕ} {value : Option α} (h : Apart (.entered key value) p a) :
    Apart ((a.act (.entered key value)).2.1.getD (.counted 0)) p
    (a.act (.entered key value)).2.2 := by
  by_cases hm : a.m_map key = none
  · simp only [Tally.act, if_pos hm]
    exact ⟨h.keyed.insert hm (h.entered key value rfl) value, fun _ _ hc => (by cases hc),
      fun ht => ⟨(h.tier ht).1, rfl⟩, h.small, h.size⟩
  · simp only [Tally.act, if_neg hm]
    exact ⟨h.keyed.overwrite hm value, fun _ _ hc => (by cases hc), fun ht => ⟨(h.tier ht).1, rfl⟩,
      h.small, h.size⟩

/-- The load of `m_size` with the eviction. -/
theorem Apart.mapped_act {key : ℕ} (h : Apart (.mapped key ()) p a) :
    Apart ((a.act (.mapped key ())).2.1.getD (.counted 0)) p (a.act (.mapped key ())).2.2 := by
  rcases evictIf_cases (a.m_size ≥ a.m_maxSize) a with he | ⟨M, k, hM, he⟩ <;>
    simp only [Tally.act, he]
  · exact h.idle rfl (fun _ _ hc => by cases hc) rfl rfl
  · obtain ⟨h1, h2, h3⟩ := h.evict hM
    refine ⟨h1, fun _ _ hc => (by cases hc), fun ht => ?_, h.small, ?_⟩
    · rw [h2] at ht; cases ht
    · simpa [owes, ← add_assoc, sub_eq_add_neg] using h3

/-- The locked section. -/
theorem Apart.evicted_act {key s : ℕ} {done : Bool} (h : Apart (.evicted key () s done) p a) :
    Apart ((a.act (.evicted key () s done)).2.1.getD (.counted 0)) p
    (a.act (.evicted key () s done)).2.2 := by
  cases ht : a.tier_no_insert with
  | true =>
    simp only [Tally.act, ht, if_true]
    obtain ⟨h1, h2⟩ := h.tier ht
    have hdone : done = false := h2
    subst hdone
    exact ⟨h.keyed.erase, fun _ _ hc => (by cases hc), fun _ => ⟨h1, rfl⟩, h.small, h.size⟩
  | false =>
    simp only [Tally.act, ht, Bool.false_eq_true, if_false]
    refine ⟨h.keyed.perm ?_, fun _ _ hc => (by cases hc), fun hc => (by cases hc), h.small, ?_⟩
    · show (key :: (a.frozen ++ a.main ++ held p)).Perm (a.frozen ++ key :: a.main ++ held p)
      simpa using (@List.perm_middle ℕ key a.frozen (a.main ++ held p)).symm
    · have := h.size.add (Int.ModEq.refl 1)
      cases done <;> simpa [owes, add_assoc] using this

theorem Apart.linked_act {s : ℕ} {done : Bool} (h : Apart (.linked s done) p a) :
    Apart ((a.act (.linked s done)).2.1.getD (.counted 0)) p (a.act (.linked s done)).2.2 := by
  refine ⟨h.keyed, fun _ _ hc => (by cases hc), fun ht => ⟨(h.tier ht).1, rfl⟩, ?_, ?_⟩
  · cases done
    · exact Nat.mod_lt _ (by decide)
    · exact h.small
  · have hsize := h.size
    cases done with
    | false =>
      have hinc := (sizeInc_modEq a.m_size).add_right (Pool.total owes p)
      refine Int.ModEq.trans ?_ hsize
      simpa [act, owes, add_assoc, add_comm, add_left_comm] using hinc
    | true => exact hsize

/-- The correction of an overfill. -/
theorem Apart.counted_act {s : ℕ} (h : Apart (.counted s) p a) :
    Apart ((a.act (.counted s)).2.1.getD (.counted 0)) p (a.act (.counted s)).2.2 := by
  rcases evictIf_cases (s > a.m_maxSize) a with he | ⟨M, k, hM, he⟩ <;> simp only [Tally.act, he]
  · exact h.idle rfl (fun _ _ hc => by cases hc) rfl rfl
  · obtain ⟨h1, h2, h3⟩ := h.evict hM
    refine ⟨h1, fun _ _ hc => (by cases hc), fun ht => ?_, sizeDec_lt h.small, ?_⟩
    · rw [h2] at ht; cases ht
    · have hdec := (sizeDec_modEq a.m_size).add_right (Pool.total owes p)
      refine Int.ModEq.trans ?_ h3
      simpa [owes, sub_add_eq_add_sub] using hdec

/-- Every step of a call keeps its part of the invariant. -/
theorem Apart.act (h : Apart c p a) : Apart ((a.act c).2.1.getD (.counted 0)) p (a.act c).2.2 := by
  cases c with
  | entered key value => exact h.entered_act
  | mapped key u => exact h.mapped_act
  | evicted key u s done => exact h.evicted_act
  | linked s done => exact h.linked_act
  | counted s => exact h.counted_act

theorem evictIf_flags (full : Prop) [Decidable full] (a : Tally α) :
    SameFlags a (a.evictIf full).2 := by
  rcases evictIf_cases full a with he | ⟨M, k, -, he⟩ <;> rw [he] <;> exact ⟨rfl, rfl, rfl⟩

theorem act_flags (a : Tally α) (c : InsertAt α Unit) : SameFlags a (a.act c).2.2 := by
  cases c with
  | entered key value => simp only [Tally.act]; split <;> exact ⟨rfl, rfl, rfl⟩
  | mapped key u => exact evictIf_flags _ a
  | evicted key u s done => simp only [Tally.act]; split <;> exact ⟨rfl, rfl, rfl⟩
  | linked s done => exact ⟨rfl, rfl, rfl⟩
  | counted s => exact evictIf_flags _ a

/-! ### The steps of the machine -/

variable {s s' : KeyCrowd α} {o : Outcome}

/-- A step of call `i`, with the other calls. -/
theorem Steady.go_cases (hs : Steady s.shared s.calls) (h : s.step (.go i) = .ok (o, s')) :
    ∃ A B c, s.calls = A ++ (i, c) :: B ∧ i ∉ (A ++ B).map Prod.fst ∧ s.calls.get i = some c ∧
      o = (s.shared.act c).1 ∧ s'.shared = (s.shared.act c).2.2 ∧
      s'.calls = A ++ (s.shared.act c).2.1.toList.map (i, ·) ++ B := by
  simp only [KeyCrowd.step, Busy.go] at h
  cases hg : s.calls.get i with
  | none => rw [hg] at h; cases h
  | some c =>
    rw [hg] at h
    obtain ⟨A, B, hp, hi, h1, h2⟩ := Pool.split hs.distinct hg
    simp only [ok_bind, pure_eq_ok, Except.ok.injEq, Prod.mk.injEq] at h
    obtain ⟨rfl, rfl⟩ := h
    refine ⟨A, B, c, hp, hi, rfl, rfl, rfl, ?_⟩
    cases hd : (s.shared.act c).2.1 with
    | none => simpa using h2
    | some d => simpa using h1 d

theorem Steady.go (hs : Steady s.shared s.calls) (h : s.step (.go i) = .ok (o, s')) :
    Steady s'.shared s'.calls := by
  obtain ⟨A, B, c, hp, -, -, -, he, hc⟩ := hs.go_cases h
  rw [hp] at hs
  have ha := hs.apart.act
  have hf := act_flags s.shared c
  rw [he, hc]
  cases hd : (s.shared.act c).2.1 with
  | none => rw [hd] at ha; simpa using hs.returns ha hf
  | some d => rw [hd] at ha; simpa using hs.goes_on ha hf

theorem Steady.enter {p : Pool (InsertAt α Unit)} {value : Option α} (hs : Steady a p)
    (hi : i ∉ p.map Prod.fst) (hk : ValidKey k) : Steady a (p.add i (.entered k value)) := by
  refine ⟨List.nodup_cons.mpr ⟨hi, hs.distinct⟩, hs.keyed, fun x hx => ?_, fun ht => ?_,
    hs.constructing, hs.ready, hs.small, by simpa [Pool.add, owes] using hs.size⟩
  · rcases List.mem_cons.mp hx with rfl | hx
    · rintro key value' hc
      cases hc
      exact hk
    · exact hs.entered x hx
  · refine ⟨(hs.tier ht).1, fun x hx => ?_⟩
    rcases List.mem_cons.mp hx with rfl | hx
    · rfl
    · exact (hs.tier ht).2 x hx

/-- The locked splice, with no call in debt. -/
theorem Steady.splice {p : Pool (InsertAt α Unit)} (hs : Steady a p) (hF : a.frozen = [])
    (hg : ∀ x ∈ p, x.2.inDebt = false) : Steady { a with
      frozen := a.main, main := [], fast_hash_construct := true, tier_no_insert := true } p := by
  have hk := hs.keyed
  have hz := hs.size
  rw [hF] at hk hz
  exact ⟨hs.distinct, by simpa using hk, hs.entered, fun _ => ⟨rfl, hg⟩, fun _ => rfl,
    fun _ => Or.inl rfl, hs.small, by simpa using hz⟩

theorem Steady.rest {p : Pool (InsertAt α Unit)} (hs : Steady a p) :
    Steady { a with tier_ready := true, fast_hash_construct := false } p :=
  ⟨hs.distinct, hs.keyed, hs.entered, hs.tier, fun h => (by cases h), fun _ => Or.inr rfl, hs.small,
    hs.size⟩

theorem Steady.deconstruct {p : Pool (InsertAt α Unit)} (hs : Steady a p)
    (hc : a.fast_hash_construct = false) : Steady { a with
      frozen := [], main := a.frozen ++ a.main
      tier_no_insert := if a.tier_ready then false else a.tier_no_insert, tier_ready :=
        false } p := by
  have hready : (if a.tier_ready then false else a.tier_no_insert) = false := by
    cases ht : a.tier_no_insert with
    | false => simp
    | true => simp [((hs.ready ht).resolve_left (by simp [hc]))]
  rw [hready]
  exact ⟨hs.distinct, by simpa using hs.keyed, hs.entered, fun h => (by cases h),
    fun h => absurd (hc.symm.trans h) (by simp), fun h => (by cases h),
    hs.small, by simpa using hs.size⟩

/-- Every step of the machine keeps the invariant. -/
theorem Steady.step {e : CrowdStep α} (hs : Steady s.shared s.calls) (hg : s.Gentle e)
    (h : s.step e = .ok (o, s')) : Steady s'.shared s'.calls := by
  cases e with
  | enter j key value =>
    simp only [KeyCrowd.step] at h
    split at h <;> cases h
    · exact hs
    · exact hs.enter hg.1.1 hg.1.2
  | go j => exact hs.go h
  | splice =>
    simp only [KeyCrowd.step] at h
    split at h <;> cases h
    rename_i hF
    exact hs.splice hF (hg.2 rfl)
  | rest => cases h; exact hs.rest
  | deconstruct =>
    simp only [KeyCrowd.step] at h
    split at h <;> cases h
    · exact hs
    · exact hs.deconstruct hg.1

end Tally
end FrozenHot
