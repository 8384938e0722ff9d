import FrozenHot.Cache.PlainPolicy
import Mathlib.Algebra.GroupWithZero.Nat
import Mathlib.Algebra.Order.BigOperators.Group.List
import Mathlib.Algebra.Order.Group.Nat

/-! `ConcurrentScalableCache` over plain list caches (`hhvm-scalable-cache.h`).

    A key belongs to the shard that the upper 16 bits of its hash select; every call goes to the
    shard of its key. The capacity is spread over the shards, the first ones taking the remainder.
    The controller and the statistics are left out. -/

namespace FrozenHot
open Schemes

/-- The values of `Type` whose shards are plain list caches. -/
inductive ListType where
  | LRU
  | FIFO
  | StrictLRU

structure ConcurrentScalableCache (K V : Type) where
  m_maxSize : ℕ
  m_numShards : ℕ
  algType : ListType
  m_shards : List (PlainCache K V)

variable {K V : Type} [DecidableEq K]

/-- `find` of a shard; `lock` is the outcome of the `try_lock` of `LRUCache`. -/
def ListType.find : ListType → Bool → PlainCache K V → K → Except Fault (Option V × PlainCache K V)
  | .LRU => LRUCache.find
  | .FIFO => fun _ => FIFOCache.find
  | .StrictLRU => fun _ => StrictLRUCache.find

/-- Whether a hit promotes. -/
def ListType.promotes : ListType → Bool → Bool
  | .LRU, lock => lock
  | .FIFO, _ => false
  | .StrictLRU, _ => true

theorem ListType.find_eq (κ : ListType) (lock : Bool) (σ : PlainCache K V) (k : K) :
    κ.find lock σ k = σ.findWith (κ.promotes lock) k := by
  cases κ <;> rfl

namespace PlainCache
variable {σ : PlainCache K V} {C : List (K × V)} {cap : ℕ} {k : K} {v : V}

/-- The value stored under a key. -/
def value (σ : PlainCache K V) (k : K) : Option V := (σ.m_map.lookup k).map HashMapValue.m_value

theorem mem_iff_value : k ∈ σ.m_map ↔ (σ.value k).isSome = true := by
  rw [value, Option.isSome_map, Option.isSome_iff_exists, Finmap.mem_iff]

theorem Content.value_eq (hc : Content cap σ C) : σ.value k = Policy.get C k := by
  obtain ⟨R, hi, rfl, -, -⟩ := hc
  by_cases hk : k ∈ R.map Row.key
  · obtain ⟨A, r, B, rfl, rfl⟩ := split_at hk
    have hA : r.key ∉ (A.map Row.pair).map Prod.fst := fun h =>
      hi.rows.key_notMem
        (by rw [keys_pair] at h; rw [List.map_append, List.mem_append]; exact Or.inl h)
    rw [value, hi.map.lookup (r := r) (by simp), List.map_append, List.map_cons, Row.pair,
      Policy.get_middle hA]
    rfl
  · rw [value, hi.map.lookup_none.mpr hk, Policy.get_none (by rwa [keys_pair])]
    rfl

/-- `find` answers with the value and changes none. -/
theorem Content.find_values (hc : Content cap σ C) (lock : Bool) (k : K) :
    ∃ σ' C', σ.findWith lock k = .ok (σ.value k, σ') ∧ Content cap σ' C' ∧
    ∀ k', σ'.value k' = σ.value k' := by
  obtain ⟨σ', h, hc'⟩ := content_find hc lock k
  rw [Policy.find_fst, ← hc.value_eq] at h
  exact ⟨σ', _, h, hc', fun k' => by rw [hc'.value_eq, Policy.get_find, hc.value_eq]⟩

/-- `insert` of a present key changes no value; of an absent key it stores the value, and other keys
    keep theirs or lose it. -/
theorem Content.insert_values (hpos : 1 ≤ cap) (hc : Content cap σ C) (k : K) (v : V) :
    ∃ b σ' C', σ.insert k v = .ok (b, σ') ∧ Content cap σ' C' ∧
      (b = false → ∀ k', σ'.value k' = σ.value k') ∧
      (b = true → σ'.value k = some v ∧ ∀ k', k' ≠ k → σ'.value k' = σ.value k' ∨
        σ'.value k' = none) := by
  obtain ⟨σ', h, hc'⟩ := content_insert hpos hc k v
  refine ⟨_, σ', _, h, hc', fun hb k' => ?_, fun hb => ?_⟩
  · by_cases hk : k ∈ C.map Prod.fst
    · rw [hc'.value_eq, hc.value_eq, Policy.insert_present hk]
    · simp [Policy.insert, hk] at hb
  · have hk : k ∉ C.map Prod.fst := fun hk => by simp [Policy.insert, hk] at hb
    have hC' : (Policy.insert cap C k v).2 = (k, v) :: C.take (cap - 1) := by
      obtain ⟨c, rfl⟩ : ∃ c, cap = c + 1 := ⟨cap - 1, by omega⟩
      rw [Policy.insert, if_neg hk, List.take_succ_cons, Nat.add_sub_cancel]
    rw [hC'] at hc'
    refine ⟨by rw [hc'.value_eq, Policy.get_cons, if_pos rfl], fun k' hk' => ?_⟩
    rw [hc'.value_eq, Policy.get_cons, if_neg hk'.symm, hc.value_eq]
    cases hg : Policy.get (C.take (cap - 1)) k' with
    | none => exact Or.inr rfl
    | some w => exact Or.inl (Policy.get_take hg).symm

theorem Content.delete_values (hc : Content cap σ C) (k : K) :
    ∃ σ' C', σ.delete_key k = .ok σ' ∧ Content cap σ' C' ∧
      ∀ k', σ'.value k' = if k' = k then none else σ.value k' := by
  obtain ⟨σ', h, hc'⟩ := content_delete hc k
  exact ⟨σ', _, h, hc', fun k' => by rw [hc'.value_eq, Policy.get_drop, hc.value_eq]⟩

end PlainCache

namespace ConcurrentScalableCache

/-- The capacity of shard `i`. -/
def capacity (maxSize numShards i : ℕ) : ℕ :=
  let s := maxSize / numShards
  let t := maxSize % numShards
  if i < t then s + 1 else s

/-- The constructor; `concurrency` is `std::thread::hardware_concurrency()`. -/
def init (maxSize numShards : ℕ) (type : ListType) (concurrency : ℕ) :
    ConcurrentScalableCache K V :=
  let n := if numShards = 0 then concurrency else numShards
  { m_maxSize := maxSize
    m_numShards := n
    algType := type
    m_shards := (List.range n).map fun i => PlainCache.init (capacity maxSize n i) }

/-- The number of the shard of a key: the hash is shifted by `digits - 16`. -/
def shardOf (hash : K → UInt64) (numShards : ℕ) (key : K) : ℕ := (hash key >>> 48).toNat % numShards

variable (hash : K → UInt64)

/-- A call of the shard of a key; `at` throws if there is no such shard. -/
def getShard {A : Type} (s : ConcurrentScalableCache K V) (key : K)
    (f : PlainCache K V → Except Fault (A × PlainCache K V)) :
    Except Fault (A × ConcurrentScalableCache K V) := do
  let h := shardOf hash s.m_numShards key
  match s.m_shards[h]? with
  | none => throw .deref
  | some σ =>
    let r ← f σ
    return (r.1, { s with m_shards := s.m_shards.set h r.2 })

def find (lock : Bool) (s : ConcurrentScalableCache K V) (key : K) :
    Except Fault (Option V × ConcurrentScalableCache K V) :=
  s.getShard hash key (s.algType.find lock · key)

def insert (s : ConcurrentScalableCache K V) (key : K) (value : V) :
    Except Fault (Bool × ConcurrentScalableCache K V) :=
  s.getShard hash key (·.insert key value)

def delete_key (s : ConcurrentScalableCache K V) (key : K) :
    Except Fault (Unit × ConcurrentScalableCache K V) :=
  s.getShard hash key fun σ => do
    let σ ← σ.delete_key key
    return ((), σ)

/-- The loop of `snapshotKeys`. -/
def snapshotShards : List (PlainCache K V) → Except Fault (List K)
  | [] => return []
  | σ :: shards => do
    let ks ← σ.snapshotKeys
    let rest ← snapshotShards shards
    return ks ++ rest

def snapshotKeys (s : ConcurrentScalableCache K V) : Except Fault (List K) :=
  snapshotShards s.m_shards

/-- `Size`. -/
def Size (s : ConcurrentScalableCache K V) : ℕ := (s.m_shards.map PlainCache.size).sum

/-- One call; `c.1` is the outcome of the `try_lock` of a `find`. -/
def call (s : ConcurrentScalableCache K V) (c : Bool × Call K V) :
    Except Fault (Resp K V × ConcurrentScalableCache K V) := do
  match c.2 with
  | .find k => let r ← s.find hash c.1 k; return (.found r.1, r.2)
  | .insert k v => let r ← s.insert hash k v; return (.inserted r.1, r.2)
  | .delete k => let r ← s.delete_key hash k; return (.deleted, r.2)
  | .keys => let ks ← s.snapshotKeys; return (.keys ks, s)

/-- The keys in the maps of the shards. -/
def storedKeys (s : ConcurrentScalableCache K V) : Finset K :=
  s.m_shards.foldr (fun σ ks => σ.m_map.keys ∪ ks) ∅

/-- One call, with the keys that have left the maps. -/
def watched (s : ConcurrentScalableCache K V) (c : Bool × Call K V) :
    Except Fault ((Resp K V × Finset K) × ConcurrentScalableCache K V) := do
  let r ← s.call hash c
  return ((r.1, s.storedKeys \ r.2.storedKeys), r.2)

/-- The value of `k` after a call: what an insertion that returned `true` stored, nothing if `k` was
    deleted or has left the map, else the value before. -/
def lastStoredStep (k : K) (v : Option V) (x : (Bool × Call K V) × (Resp K V × Finset K)) :
    Option V :=
  match x.1.2, x.2.1 with
  | .insert k' w, .inserted true => if k' = k then some w else if k ∈ x.2.2 then none else v
  | .delete k', _ => if k' = k then none else if k ∈ x.2.2 then none else v
  | _, _ => if k ∈ x.2.2 then none else v

/-- The value of the last insertion of `k` that returned `true`, unless `k` was deleted or evicted
    since. -/
def lastStored (k : K) (H : List ((Bool × Call K V) × (Resp K V × Finset K))) : Option V :=
  H.foldl (lastStoredStep k) none

variable {hash} {s s' : ConcurrentScalableCache K V} {maxSize n : ℕ} {k : K} {v : V}

/-! ### The shards -/

/-- There are `n` shards with their capacities, each a plain cache that holds keys of its own
    only. -/
structure Sharded (hash : K → UInt64) (maxSize n : ℕ) (s : ConcurrentScalableCache K V) : Prop where
  numShards : s.m_numShards = n
  length : s.m_shards.length = n
  shard : ∀ i σ, s.m_shards[i]? = some σ → ∃ C, PlainCache.Content (capacity maxSize n i) σ C
  own : ∀ i σ, s.m_shards[i]? = some σ → ∀ k ∈ σ.m_map, shardOf hash n k = i

theorem capacity_pos (hn : 1 ≤ n) (hmax : n ≤ maxSize) (i : ℕ) : 1 ≤ capacity maxSize n i := by
  have : 1 ≤ maxSize / n := (Nat.one_le_div_iff (by omega)).mpr hmax
  simp only [capacity]
  split <;> omega

/-- The capacities sum up. -/
theorem sum_capacity (maxSize : ℕ) (hn : 1 ≤ n) :
    ((List.range n).map (capacity maxSize n)).sum = maxSize := by
  have hsum : ∀ m, ((List.range m).map (capacity maxSize n)).sum = m * (maxSize / n) + min m
      (maxSize % n) := by
    intro m
    induction m with
    | zero => simp
    | succ m ih =>
      rw [List.range_succ, List.map_append, List.sum_append, ih]
      simp only [List.map_cons, List.map_nil, List.sum_cons, List.sum_nil, capacity, Nat.add_zero]
      rw [Nat.succ_mul]
      split <;> omega
  rw [hsum, min_eq_right (Nat.mod_lt _ hn).le]
  exact Nat.div_add_mod maxSize n

theorem sharded_init (hn : 1 ≤ n) (type : ListType) (concurrency : ℕ) :
    Sharded hash maxSize n (init maxSize n type concurrency : ConcurrentScalableCache K V) := by
  have hne : n ≠ 0 := by omega
  refine ⟨if_neg hne, by simp [init, hne], fun i σ hσ => ?_, fun i σ hσ k hk => ?_⟩
  · simp only [init, if_neg hne, List.getElem?_map, Option.map_eq_some_iff] at hσ
    obtain ⟨j, hj, rfl⟩ := hσ
    obtain ⟨hi, rfl⟩ := List.getElem?_eq_some_iff.mp hj
    exact ⟨[], by rw [List.getElem_range]; exact PlainCache.content_init _⟩
  · simp only [init, if_neg hne, List.getElem?_map, Option.map_eq_some_iff] at hσ
    obtain ⟨j, -, rfl⟩ := hσ
    exact (Finmap.notMem_empty hk).elim

/-- The value stored under a key, in its shard. -/
def value (hash : K → UInt64) (s : ConcurrentScalableCache K V) (k : K) : Option V :=
  (s.m_shards[shardOf hash s.m_numShards k]?).bind (·.value k)

theorem value_init (type : ListType) (concurrency : ℕ) :
    (init maxSize n type concurrency : ConcurrentScalableCache K V).value hash k = none := by
  rw [value, Option.bind_eq_none_iff]
  intro σ hσ
  obtain ⟨i, -, rfl⟩ := List.mem_map.mp (List.mem_of_getElem? hσ)
  rfl

theorem mem_foldr_keys {shards : List (PlainCache K V)} :
    k ∈ shards.foldr (fun σ ks => σ.m_map.keys ∪ ks) ∅ ↔ ∃ σ ∈ shards, k ∈ σ.m_map.keys := by
  induction shards with
  | nil => simp
  | cons σ shards ih => simp [ih]

/-- A key is in the maps exactly if its shard has a value for it. -/
theorem Sharded.mem_storedKeys (hs : Sharded hash maxSize n s) :
    k ∈ s.storedKeys ↔ (s.value hash k).isSome = true := by
  rw [storedKeys, mem_foldr_keys, value, hs.numShards]
  constructor
  · rintro ⟨σ, hσ, hk⟩
    rw [Finmap.mem_keys] at hk
    obtain ⟨i, hi⟩ := List.mem_iff_getElem?.mp hσ
    obtain rfl := hs.own i σ hi k hk
    rw [hi]
    exact PlainCache.mem_iff_value.mp hk
  · intro h
    obtain ⟨v, hv⟩ := Option.isSome_iff_exists.mp h
    obtain ⟨σ, hσ, hv⟩ := Option.bind_eq_some_iff.mp hv
    exact ⟨σ, List.mem_of_getElem? hσ,
      Finmap.mem_keys.mpr (PlainCache.mem_iff_value.mpr (by rw [hv]; rfl))⟩

/-- Every key has a shard. -/
theorem Sharded.exists_shard (hs : Sharded hash maxSize n s) (hn : 1 ≤ n) (k : K) :
    ∃ σ, s.m_shards[shardOf hash n k]? = some σ :=
  ⟨_, List.getElem?_eq_getElem (by rw [hs.length]; exact Nat.mod_lt _ hn)⟩

theorem Sharded.value_eq {σ : PlainCache K V} (hs : Sharded hash maxSize n s)
    (hσ : s.m_shards[shardOf hash n k]? = some σ) : s.value hash k = σ.value k := by
  rw [value, hs.numShards, hσ]
  rfl

/-- The cache with another shard `i`. -/
def put (s : ConcurrentScalableCache K V) (i : ℕ) (σ : PlainCache K V) :
    ConcurrentScalableCache K V :=
  { s with m_shards := s.m_shards.set i σ }

omit [DecidableEq K] in
theorem getShard_eq {A : Type} {f : PlainCache K V → Except Fault (A × PlainCache K V)} {a : A}
    {σ σ' : PlainCache K V} (hσ : s.m_shards[shardOf hash s.m_numShards k]? = some σ)
    (hf : f σ = .ok (a, σ')) :
    s.getShard hash k f = .ok (a, s.put (shardOf hash s.m_numShards k) σ') := by
  simp [getShard, hσ, hf, put]

theorem Sharded.value_put {i : ℕ} {σ : PlainCache K V} (hs : Sharded hash maxSize n s) (hi : i < n)
    (k : K) :
    (s.put i σ).value hash k = if shardOf hash n k = i then σ.value k else s.value hash k := by
  simp only [value, put, hs.numShards, List.getElem?_set, hs.length]
  by_cases h : shardOf hash n k = i
  · simp [h, hi]
  · simp [h, Ne.symm h]

/-- Another shard with keys of its own. -/
theorem Sharded.put {i : ℕ} {σ : PlainCache K V} {C : List (K × V)} (hs : Sharded hash maxSize n s)
    (hc : PlainCache.Content (capacity maxSize n i) σ C)
    (hown : ∀ k, (σ.value k).isSome = true → shardOf hash n k = i) :
    Sharded hash maxSize n (s.put i σ) := by
  have hcase : ∀ j τ, (s.m_shards.set i σ)[j]? = some τ → (j = i ∧ τ = σ) ∨
      s.m_shards[j]? = some τ := by
    intro j τ hτ
    rw [List.getElem?_set] at hτ
    by_cases h : i = j
    · subst h
      rw [if_pos rfl] at hτ
      split at hτ
      · exact Or.inl ⟨rfl, (Option.some.inj hτ).symm⟩
      · cases hτ
    · rw [if_neg h] at hτ
      exact Or.inr hτ
  refine ⟨hs.numShards, by simp [ConcurrentScalableCache.put, hs.length], fun j τ hτ => ?_,
    fun j τ hτ k hk => ?_⟩
  · rcases hcase j τ hτ with ⟨rfl, rfl⟩ | hτ
    · exact ⟨C, hc⟩
    · exact hs.shard j τ hτ
  · rcases hcase j τ hτ with ⟨rfl, rfl⟩ | hτ
    · exact hown k (PlainCache.mem_iff_value.mp hk)
    · exact hs.own j τ hτ k hk

/-- A call of the shard of `k` after which the keys of the shard are keys it had before, and maybe
    `k`. -/
theorem Sharded.routed {A : Type} {f : PlainCache K V → Except Fault (A × PlainCache K V)} {a : A}
    {σ σ' : PlainCache K V} {C : List (K × V)} (hs : Sharded hash maxSize n s) (hn : 1 ≤ n)
    (hσ : s.m_shards[shardOf hash n k]? = some σ) (hf : f σ = .ok (a, σ'))
    (hc : PlainCache.Content (capacity maxSize n (shardOf hash n k)) σ' C)
    (hkeys : ∀ k', k' ≠ k → (σ'.value k').isSome = true → (σ.value k').isSome = true) :
    ∃ s', s.getShard hash k f = .ok (a, s') ∧ Sharded hash maxSize n s' ∧ s'.algType = s.algType ∧
      ∀ k', s'.value hash k' = if shardOf hash n k' = shardOf hash n k then σ'.value k' else
      s.value hash k' := by
  have hlt : shardOf hash n k < n := Nat.mod_lt _ hn
  refine ⟨s.put (shardOf hash n k) σ', ?_, hs.put hc fun k' hk' => ?_, rfl,
    fun k' => hs.value_put hlt k'⟩
  · rw [← hs.numShards] at hσ ⊢
    exact getShard_eq hσ hf
  · by_cases h : k' = k
    · rw [h]
    · exact hs.own _ σ hσ k' (PlainCache.mem_iff_value.mpr (hkeys k' h hk'))

/-! ### The calls -/

/-- What a call does to the values, by key. -/
theorem Sharded.find (hs : Sharded hash maxSize n s) (hn : 1 ≤ n) (lock : Bool) (k : K) :
    ∃ s', s.find hash lock k = .ok (s.value hash k, s') ∧ Sharded hash maxSize n s' ∧
      ∀ k', s'.value hash k' = s.value hash k' := by
  obtain ⟨σ, hσ⟩ := hs.exists_shard hn k
  obtain ⟨C, hc⟩ := hs.shard _ σ hσ
  obtain ⟨σ', C', hf, hc', hvals⟩ := hc.find_values (s.algType.promotes lock) k
  obtain ⟨s', h, hs', -, hv⟩ := hs.routed (f := (s.algType.find lock · k)) hn hσ
    (by rw [ListType.find_eq]; exact hf) hc'
    fun k' _ h => by rwa [hvals] at h
  refine ⟨s', by rw [hs.value_eq hσ]; exact h, hs', fun k' => ?_⟩
  rw [hv, hvals]
  split
  · rename_i hk
    exact (hs.value_eq (by rw [hk]; exact hσ)).symm
  · rfl

theorem Sharded.insert (hs : Sharded hash maxSize n s) (hn : 1 ≤ n) (hmax : n ≤ maxSize) (k : K)
    (v : V) :
    ∃ b s', s.insert hash k v = .ok (b, s') ∧ Sharded hash maxSize n s' ∧
      (b = false → ∀ k', s'.value hash k' = s.value hash k') ∧
      (b = true → s'.value hash k = some v ∧
        ∀ k', k' ≠ k → s'.value hash k' = s.value hash k' ∨ s'.value hash k' = none) := by
  obtain ⟨σ, hσ⟩ := hs.exists_shard hn k
  obtain ⟨C, hc⟩ := hs.shard _ σ hσ
  obtain ⟨b, σ', C', hf, hc', hold, hnew⟩ := hc.insert_values (capacity_pos hn hmax _) k v
  have hkeys : ∀ k', k' ≠ k → (σ'.value k').isSome = true → (σ.value k').isSome = true := by
    intro k' hne hk'
    cases b with
    | false => rwa [hold rfl] at hk'
    | true => rcases (hnew rfl).2 k' hne with h | h <;> rw [h] at hk'
              · exact hk'
              · cases hk'
  obtain ⟨s', h, hs', -, hv⟩ := hs.routed (f := (·.insert k v)) hn hσ hf hc' hkeys
  refine ⟨b, s', h, hs', fun hb k' => ?_, fun hb => ⟨?_, fun k' hne => ?_⟩⟩
  · rw [hv, hold hb]
    split
    · rename_i hk
      exact (hs.value_eq (by rw [hk]; exact hσ)).symm
    · rfl
  · rw [hv, if_pos rfl]
    exact (hnew hb).1
  · rw [hv]
    split
    · rename_i hk
      rw [hs.value_eq (by rw [hk]; exact hσ)]
      exact (hnew hb).2 k' hne
    · exact Or.inl rfl

theorem Sharded.delete_key (hs : Sharded hash maxSize n s) (hn : 1 ≤ n) (k : K) :
    ∃ s', s.delete_key hash k = .ok ((), s') ∧ Sharded hash maxSize n s' ∧
      ∀ k', s'.value hash k' = if k' = k then none else s.value hash k' := by
  obtain ⟨σ, hσ⟩ := hs.exists_shard hn k
  obtain ⟨C, hc⟩ := hs.shard _ σ hσ
  obtain ⟨σ', C', hf, hc', hvals⟩ := hc.delete_values k
  obtain ⟨s', h, hs', -, hv⟩ := hs.routed (a := ())
    (f := fun σ => do let σ ← σ.delete_key k; return ((), σ)) hn hσ (by rw [hf]; rfl) hc'
    fun k' hne h => by rwa [hvals, if_neg hne] at h
  refine ⟨s', h, hs', fun k' => ?_⟩
  rw [hv, hvals]
  by_cases hk : k' = k
  · rw [hk, if_pos rfl, if_pos rfl, if_pos rfl]
  · rw [if_neg hk, if_neg hk]
    split
    · rename_i hsh
      exact (hs.value_eq (by rw [hsh]; exact hσ)).symm
    · rfl

theorem Sharded.snapshotKeys (hs : Sharded hash maxSize n s) : ∃ ks, s.snapshotKeys = .ok ks := by
  have hall : ∀ σ ∈ s.m_shards, ∃ ks, σ.snapshotKeys = .ok ks := by
    intro σ hσ
    obtain ⟨i, hi⟩ := List.mem_iff_getElem?.mp hσ
    obtain ⟨C, hc⟩ := hs.shard i σ hi
    obtain ⟨ks, h, -⟩ := hc.accounts
    exact ⟨ks, h⟩
  unfold ConcurrentScalableCache.snapshotKeys
  revert hall
  induction s.m_shards with
  | nil => exact fun _ => ⟨[], rfl⟩
  | cons σ shards ih =>
    intro hall
    obtain ⟨ks, h⟩ := hall σ (by simp)
    obtain ⟨rest, h'⟩ := ih fun τ hτ => hall τ (by simp [hτ])
    exact ⟨ks ++ rest, by simp [snapshotShards, h, h']⟩

/-- A key that keeps its value or loses it. -/
theorem Sharded.kept (hs : Sharded hash maxSize n s) (hs' : Sharded hash maxSize n s')
    (h : s'.value hash k = s.value hash k ∨ s'.value hash k = none) :
    s'.value hash k = if k ∈ s.storedKeys \ s'.storedKeys then none else s.value hash k := by
  have hleft : k ∈ s.storedKeys \ s'.storedKeys ↔
      (s.value hash k).isSome = true ∧ ¬ (s'.value hash k).isSome = true := by
    rw [Finset.mem_sdiff, hs.mem_storedKeys, hs'.mem_storedKeys]
  rcases h with h | h
  · rw [if_neg (by rw [hleft, h]; exact fun hc => hc.2 hc.1), h]
  · split
    · exact h
    · rename_i hno
      rw [h] at hleft ⊢
      cases hv : s.value hash k with
      | none => rfl
      | some v => exact absurd (hleft.mpr (by simp [hv])) hno

/-- Every call returns, and the values after it are those its history tells. -/
theorem Sharded.watched (hs : Sharded hash maxSize n s) (hn : 1 ≤ n) (hmax : n ≤ maxSize)
    (c : Bool × Call K V) :
    ∃ o s', s.watched hash c = .ok (o, s') ∧ Sharded hash maxSize n s' ∧
      ∀ k, s'.value hash k = lastStoredStep k (s.value hash k) (c, o) := by
  obtain ⟨lock, c⟩ := c
  cases c with
  | find k =>
    obtain ⟨s', h, hs', hv⟩ := hs.find hn lock k
    exact ⟨(.found (s.value hash k), s.storedKeys \ s'.storedKeys),
      s', by simp [ConcurrentScalableCache.watched, call, h], hs',
      fun k' => hs.kept hs' (Or.inl (hv k'))⟩
  | insert k v =>
    obtain ⟨b, s', h, hs', hold, hnew⟩ := hs.insert hn hmax k v
    refine ⟨(.inserted b, s.storedKeys \ s'.storedKeys),
      s', by simp [ConcurrentScalableCache.watched, call, h], hs', fun k' => ?_⟩
    cases b with
    | false => exact hs.kept hs' (Or.inl (hold rfl k'))
    | true =>
      simp only [lastStoredStep]
      by_cases hk : k = k'
      · rw [if_pos hk, ← hk]
        exact (hnew rfl).1
      · rw [if_neg hk]
        exact hs.kept hs' ((hnew rfl).2 k' (Ne.symm hk))
  | delete k =>
    obtain ⟨s', h, hs', hv⟩ := hs.delete_key hn k
    refine ⟨(.deleted, s.storedKeys \ s'.storedKeys),
      s', by simp [ConcurrentScalableCache.watched, call, h], hs', fun k' => ?_⟩
    simp only [lastStoredStep]
    by_cases hk : k = k'
    · rw [if_pos hk, hv, if_pos hk.symm]
    · rw [if_neg hk]
      exact hs.kept hs' (Or.inl (by rw [hv, if_neg (Ne.symm hk)]))
  | keys =>
    obtain ⟨ks, h⟩ := hs.snapshotKeys
    exact ⟨(.keys ks, s.storedKeys \ s.storedKeys),
      s, by simp [ConcurrentScalableCache.watched, call, h], hs, fun k' => hs.kept hs (Or.inl rfl)⟩

/-- So does a run. -/
theorem Sharded.exec (hn : 1 ≤ n) (hmax : n ≤ maxSize) (cs : List (Bool × Call K V))
    (hs : Sharded hash maxSize n s) :
    ∃ os s', Schemes.exec (ConcurrentScalableCache.watched hash) s cs = .ok (os, s') ∧
      Sharded hash maxSize n s' ∧
      ∀ k, s'.value hash k = (cs.zip os).foldl (lastStoredStep k) (s.value hash k) := by
  induction cs generalizing s with
  | nil => exact ⟨[], s, rfl, hs, fun _ => rfl⟩
  | cons c cs ih =>
    obtain ⟨o, s₁, h, hs₁, hv⟩ := hs.watched hn hmax c
    obtain ⟨os, s₂, h', hs₂, hv'⟩ := ih hs₁
    exact ⟨o :: os, s₂, by simp [Schemes.exec, h, h'], hs₂, fun k => by rw [hv', hv]; rfl⟩

/-! ### The size -/

/-- Different shards have different keys. -/
theorem Sharded.disjoint (hs : Sharded hash maxSize n s) :
    s.m_shards.Pairwise fun σ τ => Disjoint σ.m_map.keys τ.m_map.keys := by
  rw [List.pairwise_iff_getElem]
  intro i j hi hj hlt
  rw [Finset.disjoint_left]
  intro k hk hk'
  rw [Finmap.mem_keys] at hk hk'
  have h1 := hs.own i _ (List.getElem?_eq_getElem hi) k hk
  have h2 := hs.own j _ (List.getElem?_eq_getElem hj) k hk'
  omega

/-- `Size` is the number of stored keys. -/
theorem Sharded.size (hs : Sharded hash maxSize n s) : s.Size = s.storedKeys.card := by
  have hshard : ∀ σ ∈ s.m_shards, σ.size = σ.m_map.keys.card := by
    intro σ hσ
    obtain ⟨i, hi⟩ := List.mem_iff_getElem?.mp hσ
    obtain ⟨C, hc⟩ := hs.shard i σ hi
    obtain ⟨ks, -, h1, h2, -⟩ := hc.accounts
    exact h1.trans h2.symm
  have hdisj := hs.disjoint
  unfold Size storedKeys
  revert hshard hdisj
  induction s.m_shards with
  | nil => exact fun _ _ => rfl
  | cons σ shards ih =>
    intro hshard hdisj
    obtain ⟨hσ, hdisj⟩ := List.pairwise_cons.mp hdisj
    have hrest : Disjoint σ.m_map.keys (shards.foldr (fun σ ks => σ.m_map.keys ∪ ks) ∅) := by
      rw [Finset.disjoint_left]
      intro k hk hk'
      obtain ⟨τ, hτ, hk'⟩ := mem_foldr_keys.mp hk'
      exact Finset.disjoint_left.mp (hσ τ hτ) hk hk'
    rw [List.map_cons, List.sum_cons, List.foldr_cons, Finset.card_union_of_disjoint hrest,
      hshard σ (by simp), ih (fun τ hτ => hshard τ (by simp [hτ])) hdisj]

theorem Sharded.capacities (hs : Sharded hash maxSize n s) :
    s.m_shards.map PlainCache.m_maxSize = (List.range n).map (capacity maxSize n) := by
  refine List.ext_getElem? fun i => ?_
  rw [List.getElem?_map, List.getElem?_map]
  cases hi : s.m_shards[i]? with
  | none =>
    have := List.getElem?_eq_none_iff.mp hi
    rw [hs.length] at this
    rw [List.getElem?_eq_none_iff.mpr (by simpa using this)]
    rfl
  | some σ =>
    obtain ⟨C, R, -, -, -, hmax⟩ := hs.shard i σ hi
    have hlt := (List.getElem?_eq_some_iff.mp hi).1
    rw [hs.length] at hlt
    simp [List.getElem?_range hlt, hmax]

theorem Sharded.size_le (hs : Sharded hash maxSize n s) (hn : 1 ≤ n) : s.Size ≤ maxSize := by
  calc s.Size ≤ (s.m_shards.map PlainCache.m_maxSize).sum := by
        refine List.sum_le_sum fun σ hσ => ?_
        obtain ⟨i, hi⟩ := List.mem_iff_getElem?.mp hσ
        obtain ⟨C, R, hinv, -, hle, hmax⟩ := hs.shard i σ hi
        rw [PlainCache.size, hinv.size, hmax]
        exact hle
    _ = maxSize := by rw [hs.capacities, sum_capacity maxSize hn]

/-- Sequential runs of a sharded cache with any hash function return. The capacities of the shards
    sum up to `maxSize`, a key is in the map of its own shard only, `Size` is the number of stored
    keys and within `maxSize`, and `find` returns what the last successful insertion of the key has
    stored, unless it was deleted or evicted since. -/
theorem sharding_preserves_lookups (hash : K → UInt64) (maxSize numShards : ℕ) (type : ListType)
    (concurrency : ℕ) (hn : 1 ≤ numShards) (hmax : numShards ≤ maxSize)
    (cs : List (Bool × Call K V)) :
    ∃ os s, Schemes.exec (watched hash) (init maxSize numShards type concurrency) cs = .ok (os, s) ∧
      (s.m_shards.map PlainCache.m_maxSize).sum = maxSize ∧
      (∀ i σ, s.m_shards[i]? = some σ → ∀ k ∈ σ.m_map, shardOf hash s.m_numShards k = i) ∧
      s.Size = s.storedKeys.card ∧ s.Size ≤ maxSize ∧
      ∀ lock k, ∃ s', s.find hash lock k = .ok (lastStored k (cs.zip os), s') := by
  have hinit : Sharded hash maxSize numShards
    (init maxSize numShards type concurrency : ConcurrentScalableCache K V) :=
    sharded_init hn type concurrency
  obtain ⟨os, s, h, hs, hv⟩ := hinit.exec hn hmax cs
  refine ⟨os, s, h, ?_, ?_, hs.size, hs.size_le hn, fun lock k => ?_⟩
  · rw [hs.capacities, sum_capacity maxSize hn]
  · rw [hs.numShards]
    exact hs.own
  · obtain ⟨s', hf, -⟩ := hs.find hn lock k
    rw [hv k, value_init] at hf
    exact ⟨s', hf⟩

/-- Three places in two shards. -/
theorem sharding_preserves_lookups_two :
    ∃ os s, Schemes.exec (watched fun k : ℕ => k.toUInt64 <<< 48)
    (init 3 2 .LRU 8) [(true, .insert 3 7), (true, .insert 4 8), (true, .delete 3)] = .ok (os, s) ∧
    s.Size ≤ 3 ∧ ∃ s', s.find (fun k : ℕ => k.toUInt64 <<< 48) true 4 = .ok (some 8, s') := by
  have hrun : ∃ os s, Schemes.exec (watched fun k : ℕ => k.toUInt64 <<< 48) (init 3 2 .LRU 8)
      [(true, .insert 3 7), (true, .insert 4 8), (true, .delete 3)] = .ok (os, s) ∧
      lastStored 4 ([(true, .insert 3 7), (true, .insert 4 8), (true, .delete 3)].zip os) =
          some 8 :=
    ⟨_, _, rfl, by decide⟩
  obtain ⟨os, s, h, hrecall⟩ := hrun
  obtain ⟨os', s', h', -, -, -, hsize, hfind⟩ :=
    sharding_preserves_lookups (fun k : ℕ => k.toUInt64 <<< 48) 3 2 .LRU 8
    (by decide) (by decide) [(true, .insert 3 7), (true, .insert 4 8), (true, .delete 3)]
  rw [h] at h'
  cases h'
  exact ⟨os, s, h, hsize, hrecall ▸ hfind true 4⟩

end ConcurrentScalableCache
end FrozenHot
