import FrozenHot.Freeze.RepRatio
import FrozenHot.Cache.Client
import FrozenHot.Schemes.Run

/-! The calls of the FrozenHot list caches as one machine, over the heap and over lists.

    `Rep.call` ties the two: with valid keys a call either does what it does over lists, or is
    undefined over lists and does not return. -/

namespace FrozenHot
open Schemes ListShard

/-- The calls on a shard; `get` is a read request of the client. -/
inductive FHCall (α : Type) where
  | find (k : ℕ)
  | insert (k : ℕ) (v : Option α)
  | get (k : ℕ) (v : α)
  | delete_key (k : ℕ)
  | construct_tier
  | construct_ratio (FC_size : ℕ)
  | deconstruct

/-- Their answers. -/
inductive FHResp (α : Type) where
  | found (v : Option (Option α))
  | inserted (b : Bool)
  | got (g : Got (Option α))
  | done

variable {α : Type}

/-- The fast hash is in use and answers for the key. -/
def Core.frozenHit (c : Core α) (k : ℕ) : Bool :=
  (c.tier_ready || c.fast_hash_ready) && (c.m_fasthash.get k).isSome

/-- Keys the client may use. -/
def FHCall.Valid : FHCall α → Prop
  | .find k | .insert k _ | .get k _ | .delete_key k => ValidKey k
  | _ => True

instance : (c : FHCall α) → Decidable c.Valid
  | .find k | .insert k _ | .get k _ | .delete_key k => inferInstanceAs (Decidable (ValidKey k))
  | .construct_tier | .construct_ratio _ | .deconstruct => .isTrue trivial

/-- One call of `LRU_FHCache`; `c.1` is the outcome of the `try_lock` of a `find`. -/
def LRU_FHCache.call (σ : Shard α) (c : Bool × FHCall α) : Except Fault (FHResp α × Shard α) := do
  match c.2 with
  | .find k => let r ← LRU_FHCache.find c.1 σ k; return (.found r.1, r.2)
  | .insert k v => let r ← σ.insert k v; return (.inserted r.1, r.2)
  | .get k v =>
    let r ← Client.get (LRU_FHCache.find c.1 · k) (Shard.insert · k (some v)) σ
    return (.got r.1, r.2)
  | .delete_key k => let σ ← σ.delete_key k; return (.done, σ)
  | .construct_tier => let σ ← σ.construct_tier; return (.done, σ)
  | .construct_ratio FC_size => let σ ← σ.construct_ratio FC_size; return (.done, σ)
  | .deconstruct => let σ ← σ.deconstruct; return (.done, σ)

/-- One call of `FIFO_FHCache`. -/
def FIFO_FHCache.call (σ : Shard α) (c : Bool × FHCall α) : Except Fault (FHResp α × Shard α) := do
  match c.2 with
  | .find k => let r ← FIFO_FHCache.find σ k; return (.found r.1, r.2)
  | .get k v =>
    let r ← Client.get (FIFO_FHCache.find · k) (Shard.insert · k (some v)) σ
    return (.got r.1, r.2)
  | _ => LRU_FHCache.call σ c

/-- The two list caches. -/
inductive FHList where
  | LRU_FH
  | FIFO_FH

/-- `find` of either cache. -/
def FHList.find : FHList → Bool → Shard α → ℕ → Except Fault (Option (Option α) × Shard α)
  | .LRU_FH => LRU_FHCache.find
  | .FIFO_FH => fun _ => FIFO_FHCache.find

/-- One call of either cache. -/
def FHList.call : FHList → Shard α → Bool × FHCall α → Except Fault (FHResp α × Shard α)
  | .LRU_FH => LRU_FHCache.call
  | .FIFO_FH => FIFO_FHCache.call

/-- Whether a hit promotes. -/
def FHList.promotes : FHList → Bool → Bool
  | .LRU_FH, lock => lock
  | .FIFO_FH, _ => false

theorem FHList.find_eq (κ : FHList) (lock : Bool) (σ : Shard α) (k : ℕ) :
    κ.find lock σ k = σ.findWith (κ.promotes lock) k := by
  cases κ <;> rfl

/-- `FIFO_FHCache` is `LRU_FHCache` with a `find` that never promotes. -/
theorem FHList.call_eq (κ : FHList) (σ : Shard α) (c : Bool × FHCall α) :
    κ.call σ c = LRU_FHCache.call σ (κ.promotes c.1, c.2) := by
  obtain ⟨lock, c⟩ := c
  cases κ with
  | LRU_FH => rfl
  | FIFO_FH => cases c <;> rfl

namespace ListShard

/-- A read request over lists. -/
def get (lock : Bool) (τ : ListShard α) (k : ℕ) (v : Option α) :
    Option (Got (Option α) × ListShard α) :=
  match (τ.find lock k).1 with
  | some w => some (⟨some w, none⟩, (τ.find lock k).2)
  | none => ((τ.find lock k).2.insert k v).map fun r => (⟨none, some r.1⟩, r.2)

def call (τ : ListShard α) (c : Bool × FHCall α) : Option (FHResp α × ListShard α) :=
  match c.2 with
  | .find k => some (.found (τ.find c.1 k).1, (τ.find c.1 k).2)
  | .insert k v => (τ.insert k v).map fun r => (.inserted r.1, r.2)
  | .get k v => (τ.get c.1 k (some v)).map fun r => (.got r.1, r.2)
  | .delete_key k => some (.done, τ.delete_key k)
  | .construct_tier => τ.construct_tier.map (.done, ·)
  | .construct_ratio FC_size => (τ.construct_ratio FC_size).map (.done, ·)
  | .deconstruct => some (.done, τ.deconstruct)

end ListShard

namespace Shard
variable {σ σ' : Shard α} {τ : ListShard α} {s : Option Ptr} {k : ℕ} {v : Option α}

theorem rep_init (maxSize : ℕ) :
    Rep none (Shard.init maxSize : Shard α) (ListShard.init maxSize) := by
  have hlists : Lists (Shard.init maxSize : Shard α).heap none [] [] :=
    ⟨⟨List.isChain_pair.mpr ⟨rfl, rfl⟩, by simp, by simp, id, id⟩,
      ⟨List.isChain_pair.mpr ⟨rfl, rfl⟩, by simp, by simp, id, id⟩, by simp, by simp, rfl, rfl, rfl⟩
  have hdead : ∀ i, ¬ (Shard.init maxSize : Shard α).heap.Live (.node i) := fun i => by
    simp only [Shard.init, Heap.live_put, reduceCtorEq, if_false]
    exact fun h => absurd h (by simp [Heap.Live, Heap.empty])
  exact ⟨rfl, ⟨hlists, fun k e he => by simp [ListShard.init, Core.init] at he,
    fun i hi => (hdead i hi).elim⟩, rfl⟩

/-- A read request does what it does over lists. -/
theorem Rep.get {r : Got (Option α) × ListShard α} (hr : Rep none σ τ) (hk : ValidKey k)
    (κ : FHList) (lock : Bool) (he : τ.get (κ.promotes lock) k v = some r) :
    ∃ σ', Client.get (κ.find lock · k) (Shard.insert · k v) σ = .ok (r.1, σ') ∧
      Rep none σ' r.2 := by
  obtain ⟨σ₁, h1, hr₁⟩ := hr.find (κ.promotes lock) k
  unfold ListShard.get at he
  split at he
  · rename_i w hw
    cases he
    exact ⟨σ₁, by simp [Client.get, κ.find_eq, h1, hw], hr₁⟩
  · rename_i hw
    obtain ⟨i, hi, rfl⟩ := Option.map_eq_some_iff.mp he
    obtain ⟨σ₂, h2, hr₂⟩ := hr₁.insert hk hi
    exact ⟨σ₂, by simp [Client.get, κ.find_eq, h1, hw, h2], hr₂⟩

/-- Every call does what it does over lists. -/
theorem Rep.call {c : Bool × FHCall α} {r : FHResp α × ListShard α} (hr : Rep none σ τ)
    (hc : c.2.Valid) (he : τ.call c = some r) :
    ∃ σ', LRU_FHCache.call σ c = .ok (r.1, σ') ∧ Rep none σ' r.2 := by
  obtain ⟨lock, c⟩ := c
  cases c with
  | find k =>
    cases he
    obtain ⟨σ', h1, h2⟩ := hr.find lock k
    exact ⟨σ', by simp [LRU_FHCache.call, LRU_FHCache.find, h1], h2⟩
  | insert k v =>
    obtain ⟨r, hi, rfl⟩ := Option.map_eq_some_iff.mp he
    obtain ⟨σ', h1, h2⟩ := hr.insert hc hi
    exact ⟨σ', by simp [LRU_FHCache.call, h1], h2⟩
  | get k v =>
    obtain ⟨r, hg, rfl⟩ := Option.map_eq_some_iff.mp he
    obtain ⟨σ', h1, h2⟩ := hr.get hc .LRU_FH lock hg
    have h1' : Client.get (LRU_FHCache.find lock · k) (Shard.insert · k (some v)) σ =
      .ok (r.1, σ') := h1
    exact ⟨σ', by simp [LRU_FHCache.call, h1'], h2⟩
  | delete_key k =>
    cases he
    obtain ⟨σ', h1, h2⟩ := hr.delete_key k
    exact ⟨σ', by simp [LRU_FHCache.call, h1], h2⟩
  | construct_tier =>
    obtain ⟨τ', ht, rfl⟩ := Option.map_eq_some_iff.mp he
    obtain ⟨σ', h1, h2⟩ := hr.construct_tier ht
    exact ⟨σ', by simp [LRU_FHCache.call, h1], h2⟩
  | construct_ratio FC_size =>
    obtain ⟨τ', ht, rfl⟩ := Option.map_eq_some_iff.mp he
    obtain ⟨σ', h1, h2⟩ := hr.construct_ratio ht
    exact ⟨σ', by simp [LRU_FHCache.call, h1], h2⟩
  | deconstruct =>
    cases he
    obtain ⟨σ', h1, h2⟩ := hr.deconstruct
    exact ⟨σ', by simp [LRU_FHCache.call, h1], h2⟩

/-- A call that is not defined over lists does not return. -/
theorem Rep.call_fails {c : Bool × FHCall α} (hr : Rep none σ τ) (hc : c.2.Valid)
    (he : τ.call c = none) : ∃ e, LRU_FHCache.call σ c = .error e := by
  obtain ⟨lock, c⟩ := c
  cases c with
  | find k => cases he
  | insert k v =>
    exact ⟨.diverge, by simp [LRU_FHCache.call, hr.insert_fails hc (Option.map_eq_none_iff.mp he)]⟩
  | get k v =>
    have hg := Option.map_eq_none_iff.mp he
    obtain ⟨σ₁, h1, hr₁⟩ := hr.find lock k
    unfold ListShard.get at hg
    split at hg
    · cases hg
    · rename_i hw
      have hi := hr₁.insert_fails hc (Option.map_eq_none_iff.mp hg)
      exact ⟨.diverge, by simp [LRU_FHCache.call, Client.get, LRU_FHCache.find, h1, hw, hi]⟩
  | delete_key k => cases he
  | construct_tier =>
    have ht := hr.construct_tier_fails (Option.map_eq_none_iff.mp he)
    exact ⟨.assertion, by simp [LRU_FHCache.call, ht]⟩
  | construct_ratio FC_size =>
    obtain ⟨e, h1⟩ := hr.construct_ratio_fails (Option.map_eq_none_iff.mp he)
    exact ⟨e, by simp [LRU_FHCache.call, h1]⟩
  | deconstruct => cases he

/-- A call that returned did what it does over lists. -/
theorem Rep.call_ok {κ : FHList} {c : Bool × FHCall α} {o : FHResp α} (hr : Rep none σ τ)
    (hc : c.2.Valid) (h : κ.call σ c = .ok (o, σ')) :
    ∃ τ', τ.call (κ.promotes c.1, c.2) = some (o, τ') ∧ Rep none σ' τ' := by
  rw [κ.call_eq] at h
  cases he : τ.call (κ.promotes c.1, c.2) with
  | none =>
    obtain ⟨e, h'⟩ := hr.call_fails (c := (κ.promotes c.1, c.2)) hc he
    rw [h] at h'; cases h'
  | some r =>
    obtain ⟨σ₁, h1, h2⟩ := hr.call (c := (κ.promotes c.1, c.2)) hc he
    rw [h] at h1
    cases h1
    exact ⟨r.2, rfl, h2⟩

end Shard
end FrozenHot
