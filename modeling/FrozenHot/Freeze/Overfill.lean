import FrozenHot.Freeze.Crowd

/-! The correction of an overfill in `LRU_FHCache` and `FIFO_FHCache`.

    The steps of `insert` are taken apart further than in a crowd: the load of `m_size`, the locked
    section of `evict` and its erasure are steps of their own, and so are the second eviction and
    the `m_size--` that follows it. The plain caches lower `m_size` with a compare-and-exchange;
    here every call that has loaded a size above `maxSize` evicts once more, whatever has become of
    `m_size`. -/

namespace FrozenHot
open Schemes

variable {α : Type}

namespace Shard

/-- The locked section of `evict`: the node taken off the list, if there is one. -/
def evictSelect (σ : Shard α) : Except Fault (Option Ptr × Shard α) := do
  let r ← dropTombs (σ.fresh + 1) σ.heap
  if r.1 = .m_head then return (none, { σ with heap := r.2 })
  let h ← delinkChecked r.2 r.1
  return (some r.1, { σ with heap := h })

/-- The rest of `evict`, with the accessor of the key free: whether the key was found, and
    erased. -/
def evictErase (σ : Shard α) (moribund : Ptr) : Except Fault (Bool × Shard α) := do
  let key ← keyOf σ.heap moribund
  match σ.m_map.lookup key with
  | none => return (false, { σ with unreachable_counter := σ.unreachable_counter + 1 })
  | some _ => return (true, { σ with heap := σ.heap.free moribund, m_map := σ.m_map.erase key })

/-- `evict` is its two parts. -/
theorem evict_eq (σ : Shard α) : σ.evict none = (do
    let r ← σ.evictSelect
    match r.1 with
    | none => return (false, r.2)
    | some moribund => evictErase r.2 moribund) := by
  simp only [evict, evictSelect, bind_assoc]
  congr 1
  funext r
  by_cases hr : r.1 = .m_head
  · simp [hr]
  · simp only [hr, if_false, bind_assoc]
    congr 1

end Shard

/-- Where an `insert` is in its code. -/
inductive FillAt (α : Type) where
  /-- past the early test -/
  | entered (key : ℕ) (value : Option α)
  /-- the key is in the map, its accessor held -/
  | mapped (key : ℕ) (node : Ptr)
  /-- `m_size` is loaded, and at capacity -/
  | full (key : ℕ) (node : Ptr) (s : ℕ)
  /-- it has taken `moribund` off the list -/
  | evicting (key : ℕ) (node : Ptr) (s : ℕ) (moribund : Ptr)
  /-- it is about to link its node -/
  | room (key : ℕ) (node : Ptr) (s : ℕ) (evictionDone : Bool)
  /-- the node is linked, the accessor released -/
  | linked (s : ℕ) (evictionDone : Bool)
  /-- it is about to test for an overfill -/
  | counted (s : ℕ)
  /-- it has taken `moribund` off the list -/
  | shedding (moribund : Ptr)
  /-- the second eviction is done, `m_size` to be decremented -/
  | shed

/-- The key whose accessor is held. -/
def FillAt.held : FillAt α → Option ℕ
  | .mapped key _ | .full key _ _ | .evicting key _ _ _ | .room key _ _ _ => some key
  | _ => none

/-- A shard with calls of `insert` in flight. -/
abbrev Filling (α : Type) := Busy (Shard α) (FillAt α)

/-- A call `i` comes in or does its next step. -/
inductive FillStep (α : Type) where
  | enter (i key : ℕ) (value : Option α)
  | go (i : ℕ)

namespace Filling

def init (maxSize : ℕ) : Filling α := ⟨Shard.init maxSize, []⟩

/-- The next step of a call: what it tells the caller, and where the call is then, unless it
    returns. -/
def act (σ : Shard α) : FillAt α → Except Fault (Outcome × Option (FillAt α) × Shard α)
  | .entered key value => do
    let node := .node σ.fresh
    let r := Shard.insertMap (σ.newNode key) key value node
    if r.1 then return (.running, some (.mapped key node), r.2) else return (.present, none, r.2)
  | .mapped key node =>
    return (.running, some (if σ.m_size ≥ σ.m_maxSize then .full key node σ.m_size
      else .room key node σ.m_size false), σ)
  | .full key node s => do
    let r ← σ.evictSelect
    match r.1 with
    | none => return (.running, some (.room key node s false), r.2)
    | some moribund => return (.running, some (.evicting key node s moribund), r.2)
  | .evicting key node s moribund => do
    let r ← σ.evictErase moribund
    return (.running, some (.room key node s r.1), r.2)
  | .room key node s evictionDone => do
    let r ← σ.insertLink key node
    if r.1 then return (.running, some (.linked s evictionDone), r.2) else
      return (.refused, none, r.2)
  | .linked s evictionDone =>
    return (.running, some (.counted (if evictionDone then s else σ.m_size)), σ.count evictionDone)
  | .counted s => do
    if s > σ.m_maxSize then
      let r ← σ.evictSelect
      match r.1 with
      | none => return (.inserted, none, r.2)
      | some moribund => return (.running, some (.shedding moribund), r.2)
    else return (.inserted, none, σ)
  | .shedding moribund => do
    let r ← σ.evictErase moribund
    if r.1 then return (.running, some .shed, r.2) else return (.inserted, none, r.2)
  | .shed => return (.inserted, none, { σ with m_size := sizeDec σ.m_size })

def step (s : Filling α) : FillStep α → Except Fault (Outcome × Filling α)
  | .enter i key value =>
    if s.shared.tier_no_insert then return (.refused, s)
    else return (.running, { s with calls := s.calls.add i (.entered key value) })
  | .go i => s.go act i

/-- Nobody has the accessor of the key of a node. -/
def Released (s : Filling α) (moribund : Ptr) : Prop :=
  match Shard.keyOf s.shared.heap moribund with
  | .ok key => ∀ x ∈ s.calls, x.2.held ≠ some key
  | .error _ => True

instance (s : Filling α) (moribund : Ptr) : Decidable (s.Released moribund) := by
  unfold Released; split <;> infer_instance

/-- The accessor that the next step of a call needs is free. -/
def Free (s : Filling α) : FillAt α → Prop
  | .entered key _ => ∀ x ∈ s.calls, x.2.held ≠ some key
  | .evicting _ _ _ moribund | .shedding moribund => s.Released moribund
  | _ => True

instance (s : Filling α) : DecidablePred s.Free := by
  intro c; cases c <;> unfold Free <;> infer_instance

/-- The steps that can come next. -/
def Enabled (s : Filling α) : FillStep α → Prop
  | .enter i _ _ => i ∉ s.calls.map Prod.fst
  | .go i => ∃ c ∈ s.calls.get i, s.Free c

instance (s : Filling α) : DecidablePred s.Enabled := by
  intro e; cases e <;> unfold Enabled <;> infer_instance

/-! ### Pending decrements -/

/-- Whether a call is past the locked section of its second eviction. -/
def sheds : FillAt α → ℤ
  | .shedding _ | .shed => 1
  | _ => 0

/-- What the step of a call at a place needs: an increment does not overflow, and a second eviction
    finds `m_size` above `maxSize` by more than the second evictions that are not counted down
    yet. -/
def Warranted (s : Filling α) : FillAt α → Prop
  | .linked _ false => s.shared.m_size + 1 < 2 ^ 64
  | .counted t => t > s.shared.m_maxSize →
      (s.shared.m_maxSize : ℤ) + Pool.total sheds s.calls < s.shared.m_size
  | _ => True

instance (s : Filling α) : DecidablePred s.Warranted := by
  intro c
  cases c with
  | linked t done => cases done <;> unfold Warranted <;> infer_instance
  | _ => unfold Warranted; infer_instance

/-- The steps in which second evictions are warranted. -/
def Careful (s : Filling α) (e : FillStep α) : Prop :=
  s.Enabled e ∧ match e with
    | .enter _ _ _ => True
    | .go i => ∀ c ∈ s.calls.get i, s.Warranted c

instance (s : Filling α) : DecidablePred s.Careful := by
  intro e; cases e <;> unfold Careful <;> infer_instance

variable {σ σ' : Shard α} {c : FillAt α} {d : Option (FillAt α)} {o : Outcome} {i max : ℕ}
variable {s s' : Filling α} {p q : Pool (FillAt α)}

theorem evictSelect_size {r : Option Ptr × Shard α} (h : σ.evictSelect = .ok r) :
    r.2.m_size = σ.m_size ∧ r.2.m_maxSize = σ.m_maxSize := by
  obtain ⟨x, -, h⟩ := bind_eq_ok.mp h
  split at h
  · cases h; exact ⟨rfl, rfl⟩
  · obtain ⟨y, -, h⟩ := bind_eq_ok.mp h
    cases h
    exact ⟨rfl, rfl⟩

theorem evictErase_size {m : Ptr} {r : Bool × Shard α} (h : σ.evictErase m = .ok r) :
    r.2.m_size = σ.m_size ∧ r.2.m_maxSize = σ.m_maxSize := by
  obtain ⟨k, -, h⟩ := bind_eq_ok.mp h
  cases hk : σ.m_map.lookup k <;> rw [hk] at h <;> cases h <;> exact ⟨rfl, rfl⟩

theorem insertMap_size (σ : Shard α) (key : ℕ) (value : Option α) (node : Ptr) :
    (σ.insertMap key value node).2.m_size = σ.m_size ∧ (σ.insertMap key value node).2.m_maxSize =
    σ.m_maxSize := by
  unfold Shard.insertMap
  cases σ.m_map.lookup key with
  | some e => exact ⟨rfl, rfl⟩
  | none => cases σ.fast_hash_construct <;> exact ⟨rfl, rfl⟩

theorem insertLink_size {key : ℕ} {node : Ptr} {r : Bool × Shard α}
    (h : σ.insertLink key node = .ok r) :
    r.2.m_size = σ.m_size ∧ r.2.m_maxSize = σ.m_maxSize := by
  unfold Shard.insertLink at h
  split at h
  · cases h; exact ⟨rfl, rfl⟩
  · split at h
    · obtain ⟨k, -, h⟩ := bind_eq_ok.mp h
      obtain ⟨v, -, h⟩ := bind_eq_ok.mp h
      obtain ⟨h₁, -, h⟩ := bind_eq_ok.mp h
      obtain ⟨h₂, -, h⟩ := bind_eq_ok.mp h
      cases h
      exact ⟨rfl, rfl⟩
    · obtain ⟨h₁, -, h⟩ := bind_eq_ok.mp h
      cases h
      exact ⟨rfl, rfl⟩

/-- Where a step takes a call, and what it makes of `m_size`. -/
inductive Goes (max S : ℕ) : FillAt α → Option (FillAt α) → ℕ → Prop
  | idle {c : FillAt α} {d : Option (FillAt α)} : d.elim 0 sheds ≤ sheds c → Goes max S c d S
  | counts {t : ℕ} : Goes max S (.linked t false) (some (.counted S)) (sizeInc S)
  | evicts {t : ℕ} {m : Ptr} : max < t → Goes max S (.counted t) (some (.shedding m)) S
  | decrements : Goes max S .shed none (sizeDec S)

/-- What a step can do. -/
theorem act_goes (h : act σ c = .ok (o, d, σ')) :
    σ'.m_maxSize = σ.m_maxSize ∧ Goes σ.m_maxSize σ.m_size c d σ'.m_size := by
  cases c with
  | entered key value =>
    obtain ⟨h1, h2⟩ := insertMap_size (σ.newNode key) key value (.node σ.fresh)
    simp only [act] at h
    split at h <;> cases h
    · exact ⟨h2, by rw [h1]; exact .idle le_rfl⟩
    · exact ⟨h2, by rw [h1]; exact .idle le_rfl⟩
  | mapped key node =>
    cases h
    refine ⟨rfl, .idle ?_⟩
    by_cases hfull : σ.m_size ≥ σ.m_maxSize <;> simp [hfull, sheds]
  | full key node t =>
    obtain ⟨⟨m, τ⟩, hr, h⟩ := bind_eq_ok.mp h
    obtain ⟨h1, h2⟩ := evictSelect_size hr
    cases m <;> cases h <;> exact ⟨h2, by rw [h1]; exact .idle le_rfl⟩
  | evicting key node t m =>
    obtain ⟨r, hr, h⟩ := bind_eq_ok.mp h
    obtain ⟨h1, h2⟩ := evictErase_size hr
    cases h
    exact ⟨h2, by rw [h1]; exact .idle le_rfl⟩
  | room key node t done =>
    obtain ⟨⟨b, τ⟩, hr, h⟩ := bind_eq_ok.mp h
    obtain ⟨h1, h2⟩ := insertLink_size hr
    cases b <;> cases h <;> exact ⟨h2, by rw [h1]; exact .idle le_rfl⟩
  | linked t done =>
    cases h
    cases done
    · exact ⟨rfl, .counts⟩
    · exact ⟨rfl, .idle le_rfl⟩
  | counted t =>
    simp only [act] at h
    split at h
    · rename_i hover
      obtain ⟨⟨m, τ⟩, hr, h⟩ := bind_eq_ok.mp h
      obtain ⟨h1, h2⟩ := evictSelect_size hr
      cases m <;> cases h
      · exact ⟨h2, by rw [h1]; exact .idle le_rfl⟩
      · exact ⟨h2, by rw [h1]; exact .evicts hover⟩
    · cases h
      exact ⟨rfl, .idle le_rfl⟩
  | shedding m =>
    obtain ⟨⟨b, τ⟩, hr, h⟩ := bind_eq_ok.mp h
    obtain ⟨h1, h2⟩ := evictErase_size hr
    cases b <;> cases h
    · exact ⟨h2, by rw [h1]; exact .idle (by simp [sheds])⟩
    · exact ⟨h2, by rw [h1]; exact .idle le_rfl⟩
  | shed => cases h; exact ⟨rfl, .decrements⟩

/-! ### Whole runs -/

/-- Second evictions that are not counted down yet leave `m_size` at `maxSize`. -/
structure Covered (max : ℕ) (s : Filling α) : Prop where
  distinct : s.calls.Distinct
  maxSize : s.shared.m_maxSize = max
  pending : Pool.total sheds s.calls = 0 ∨ (max : ℤ) + Pool.total sheds s.calls ≤ s.shared.m_size

theorem covered_init (maxSize : ℕ) : Covered maxSize (init maxSize : Filling α) :=
  ⟨List.nodup_nil, rfl, Or.inl rfl⟩

theorem sheds_nonneg (c : FillAt α) : 0 ≤ sheds c := by cases c <;> simp [sheds]

theorem total_sheds_nonneg (p : Pool (FillAt α)) : 0 ≤ Pool.total sheds p :=
  le_trans (by rw [Pool.total_const]; simp) (Pool.total_le_total (f := fun _ => 0) sheds_nonneg p)

/-- A step keeps the pending decrements covered; `P` are those of the other calls. -/
theorem Goes.covers {S S' : ℕ} {P : ℤ} (hg : Goes max S c d S') (hP : 0 ≤ P)
    (hpending : sheds c + P = 0 ∨ (max : ℤ) + (sheds c + P) ≤ S)
    (hover : ∀ t, c = .counted t → t > max → (max : ℤ) + (sheds c + P) < S)
    (hfits : ∀ t, c = .linked t false → S + 1 < 2 ^ 64) :
    (d.elim 0 sheds + P = 0 ∨ (max : ℤ) + (d.elim 0 sheds + P) ≤ S') ∧ (max ≤ S → max ≤ S') := by
  cases hg with
  | idle hle =>
    have hd : 0 ≤ d.elim 0 sheds := by cases d with
      | none => exact le_rfl
      | some d => exact sheds_nonneg d
    omega
  | counts =>
    have hinc : sizeInc S = S + 1 := Nat.mod_eq_of_lt (hfits _ rfl)
    simp only [sheds, Option.elim, hinc] at hpending ⊢
    omega
  | evicts ht =>
    have := hover _ rfl ht
    simp only [sheds, Option.elim] at this ⊢
    omega
  | decrements =>
    have hdec : sizeDec S = S - 1 := if_neg (by simp only [sheds] at hpending; omega)
    simp only [sheds, Option.elim, hdec] at hpending ⊢
    omega

/-- A call in flight does its next step. -/
theorem Covered.go (hs : Covered max s) (hw : ∀ c ∈ s.calls.get i, s.Warranted c)
    (h : s.step (.go i) = .ok (o, s')) :
    Covered max s' ∧ (max ≤ s.shared.m_size → max ≤ s'.shared.m_size) := by
  obtain ⟨c, d, q, hgo⟩ := Busy.went hs.distinct h
  obtain ⟨hmax, hg⟩ := act_goes hgo.act
  have hwarr := hw c hgo.at_
  have hpending := hs.pending
  rw [hs.maxSize] at hg hmax
  rw [Pool.total_perm _ hgo.before, Pool.total_cons] at hpending
  obtain ⟨h1, h2⟩ := hg.covers (total_sheds_nonneg q) hpending
    (by rintro t rfl ht
        simpa only [Warranted, hs.maxSize, ht, true_implies, Pool.total_perm _ hgo.before,
          Pool.total_cons] using hwarr)
    (by rintro t rfl; exact hwarr)
  refine ⟨⟨hgo.distinct, hmax, ?_⟩, h2⟩
  rw [Pool.total_perm _ hgo.after]
  cases d <;> simpa using h1

/-- Every step keeps the invariant and does not let `m_size` fall below `maxSize`. -/
theorem Covered.step {e : FillStep α} (hs : Covered max s) (hc : s.Careful e)
    (h : s.step e = .ok (o, s')) :
    Covered max s' ∧ (max ≤ s.shared.m_size → max ≤ s'.shared.m_size) := by
  cases e with
  | enter i key value =>
    simp only [Filling.step] at h
    split at h <;> cases h
    · exact ⟨hs, id⟩
    · exact ⟨⟨List.nodup_cons.mpr ⟨hc.1, hs.distinct⟩,
        hs.maxSize, by simpa [Pool.add, sheds] using hs.pending⟩, id⟩
  | go i => exact hs.go hc.2 h

/-- Calls of `insert` in flight in any interleaving in which every second eviction is warranted:
    once `m_size` has reached `maxSize` it never falls below. -/
theorem overfill_correction_keeps_full {maxSize : ℕ} {H H' : List (FillStep α × Outcome)}
    (hrun : Run Filling.step Careful (init maxSize) H s) (hfull : maxSize ≤ s.shared.m_size)
    (hrun' : Run Filling.step Careful s H' s') : maxSize ≤ s'.shared.m_size := by
  have hs : Covered maxSize s := hrun.invariant (Covered maxSize) (covered_init maxSize)
    fun s e o s' hs hc _ h => (hs.step hc h).1
  refine (hrun'.invariant (fun s => Covered maxSize s ∧ maxSize ≤ s.shared.m_size) ⟨hs, hfull⟩ ?_).2
  rintro s e o s' ⟨hs, hfull⟩ hc - h
  exact ⟨(hs.step hc h).1, (hs.step hc h).2 hfull⟩

/-- Two insertions find room for one; the next one corrects the overfill. -/
theorem overfill_correction_keeps_full_one :
    ∃ (s s' : Filling ℕ) (H H' : List (FillStep ℕ × Outcome)),
    Run Filling.step Careful (init 1) H s ∧ s.shared.m_size = 2 ∧ Run Filling.step Careful s H' s' ∧
      s'.shared.m_size = 1 ∧ 1 ≤ s'.shared.m_size := by
  have hrun : ∃ (s s' : Filling ℕ) (H H' : List (FillStep ℕ × Outcome)),
      Run Filling.step Careful (init 1) H s ∧ Run Filling.step Careful s H' s' ∧
        s.shared.m_size = 2 ∧
        s'.shared.m_size = 1 :=
    ⟨_, _,
      [(.enter 0 3 (some 7), .running), (.enter 1 4 (some 8), .running), (.go 0, .running),
       (.go 1, .running), (.go 0, .running), (.go 1, .running), (.go 0, .running),
       (.go 1, .running), (.go 0, .running), (.go 1, .running), (.go 0, .inserted),
       (.go 1, .inserted)],
      [(.enter 2 5 (some 9), .running), (.go 2, .running), (.go 2, .running), (.go 2, .running),
       (.go 2, .running), (.go 2, .running), (.go 2, .running), (.go 2, .running),
       (.go 2, .running), (.go 2, .inserted)],
      .cons (by decide) rfl (.cons (by decide) rfl (.cons (by decide) rfl (.cons (by decide) rfl
        (.cons (by decide) rfl (.cons (by decide) rfl (.cons (by decide) rfl (.cons (by decide) rfl
        (.cons (by decide) rfl (.cons (by decide) rfl
          (.cons (by decide) rfl (.cons (by decide) rfl .nil))))))))))),
      .cons (by decide) rfl (.cons (by decide) rfl (.cons (by decide) rfl (.cons (by decide) rfl
        (.cons (by decide) rfl (.cons (by decide) rfl (.cons (by decide) rfl (.cons (by decide) rfl
        (.cons (by decide) rfl (.cons (by decide) rfl .nil))))))))), rfl, rfl⟩
  obtain ⟨s, s', H, H', h1, h2, h3, h4⟩ := hrun
  exact ⟨s, s', H, H', h1, h3, h2, h4, overfill_correction_keeps_full h1 (by omega) h2⟩

/-- After an overfill by one, two insertions have loaded the same size and both evict once more. -/
theorem overfill_correction_underfills : ∃ (s s' : Filling ℕ) (H H' : List (FillStep ℕ × Outcome)),
    Run Filling.step Enabled (init 1) H s ∧ 1 ≤ s.shared.m_size ∧ Run Filling.step Enabled s H' s' ∧
      s'.calls = [] ∧ s'.shared.m_size = 0 :=
  ⟨_, _,
    [(.enter 0 3 (some 7), .running), (.enter 1 4 (some 8), .running), (.go 0, .running),
     (.go 1, .running), (.go 0, .running), (.go 1, .running), (.go 0, .running), (.go 1, .running),
     (.go 0, .running), (.go 1, .running), (.go 0, .inserted), (.go 1, .inserted)],
    [(.enter 2 5 (some 9), .running), (.enter 3 6 (some 9), .running), (.go 2, .running),
     (.go 3, .running), (.go 2, .running), (.go 3, .running), (.go 2, .running), (.go 3, .running),
     (.go 2, .running), (.go 3, .running), (.go 2, .running), (.go 3, .running),
     (.go 2, .running), (.go 3, .running), (.go 2, .running), (.go 2, .running),
     (.go 2, .inserted), (.go 3, .running), (.go 3, .running), (.go 3, .inserted)],
    .cons (by decide) rfl (.cons (by decide) rfl (.cons (by decide) rfl (.cons (by decide) rfl
      (.cons (by decide) rfl (.cons (by decide) rfl (.cons (by decide) rfl (.cons (by decide) rfl
      (.cons (by decide) rfl (.cons (by decide) rfl
        (.cons (by decide) rfl (.cons (by decide) rfl .nil))))))))))), by decide,
    .cons (by decide) rfl (.cons (by decide) rfl (.cons (by decide) rfl (.cons (by decide) rfl
      (.cons (by decide) rfl (.cons (by decide) rfl (.cons (by decide) rfl (.cons (by decide) rfl
      (.cons (by decide) rfl (.cons (by decide) rfl (.cons (by decide) rfl (.cons (by decide) rfl
      (.cons (by decide) rfl (.cons (by decide) rfl (.cons (by decide) rfl (.cons (by decide) rfl
      (.cons (by decide) rfl (.cons (by decide) rfl
        (.cons (by decide) rfl (.cons (by decide) rfl .nil))))))))))))))))))), rfl, rfl⟩

end Filling
end FrozenHot
