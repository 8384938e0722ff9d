import FrozenHot.Cache.RandomizedSet
import FrozenHot.Schemes.Run
import Mathlib.Data.Finset.Card

/-! `RedisLRUCache` (`redis_lru.h`): victims come from a pool of keys that random samples fill.

    The environment gives each call its clock readings and, for each pass of the eviction loop, the
    random numbers and the clock readings of that pass; a call whose passes run out without a victim
    has not ended. Keys are numbers and zero marks an empty place of the pool. The statistics,
    `clear` and the unused `performEviction` are left out. -/

namespace FrozenHot
open Schemes

/-- `evictionPoolEntry`. -/
structure EvictionPoolEntry where
  idle : ℕ
  key : ℕ

/-- `EvictionPool`: sixteen pointers to allocated entries. `memmove` moves the pointers, so that two
    places may come to share an entry. -/
structure EvictionPool where
  place : ℕ → ℕ
  entry : ℕ → EvictionPoolEntry

namespace EvictionPool

def init : EvictionPool := ⟨id, fun _ => ⟨0, 0⟩⟩

/-- `*(EvictionPool[j])`. -/
def get (p : EvictionPool) (j : ℕ) : EvictionPoolEntry := p.entry (p.place j)

def put (p : EvictionPool) (j : ℕ) (e : EvictionPoolEntry) : EvictionPool :=
  { p with entry := Function.update p.entry (p.place j) e }

/-- `memmove(EvictionPool + j + 1, EvictionPool + j, ..)` up to the last place. -/
def moveRight (p : EvictionPool) (j : ℕ) : EvictionPool :=
  { p with place := fun x => if j < x ∧ x < 16 then p.place (x - 1) else p.place x }

/-- `memmove(EvictionPool, EvictionPool + 1, ..)` of `j` places. -/
def moveLeft (p : EvictionPool) (j : ℕ) : EvictionPool :=
  { p with place := fun x => if x < j then p.place (x + 1) else p.place x }

/-- The first place from `j` on, of `left` places, that is empty or not idle for less. -/
def seek (p : EvictionPool) (idle : ℕ) : (left j : ℕ) → ℕ
  | 0, j => j
  | left + 1, j => if (p.get j).key ≠ 0 ∧ (p.get j).idle < idle then seek p idle left (j + 1) else j

/-- Puts a sample into the pool, by idle time. -/
def add (p : EvictionPool) (idle key : ℕ) : EvictionPool :=
  let j := p.seek idle 16 0
  if j = 0 ∧ (p.get 0).key ≠ 0 ∧ (p.get 15).key ≠ 0 then p
  else if j < 16 ∧ (p.get j).key = 0 then p.put j ⟨idle, key⟩
  else if (p.get 15).key = 0 then (p.moveRight j).put j ⟨idle, key⟩
  else (p.moveLeft (j - 1)).put (j - 1) ⟨idle, key⟩

end EvictionPool

/-- What a pass of the eviction loop draws: the random number of each draw, and the clock reading
    for each sample. -/
structure Pass where
  random : ℕ → ℕ
  clock : ℕ → ℕ

/-- The value of a map entry with the `lru` of its `lru_object`. -/
structure LruValue (V : Type) where
  m_value : V
  lru : ℕ

structure RedisLRUCache (V : Type) where
  n : ℕ
  s : ℕ
  EvictionPool : EvictionPool
  m_map : Finmap fun _ : ℕ => LruValue V
  rs : RandomizedSet ℕ

/-- The calls, with what the environment supplies. -/
inductive RedisCall (V : Type) where
  | find (key now : ℕ)
  | insert (key : ℕ) (value : V) (now : ℕ) (passes : List Pass)

/-- The results of the calls. -/
inductive RedisReply (V : Type) where
  | found (value : Option V)
  | inserted (b : Bool)
  deriving DecidableEq

def RedisCall.key {V : Type} : RedisCall V → ℕ
  | .find key _ | .insert key _ _ _ => key

namespace RedisLRUCache
variable {V : Type}

def init (capacity : ℕ) : RedisLRUCache V := ⟨capacity, 0, .init, ∅, .empty⟩

/-- `estimateObjectIdleTime` at the clock reading `lruclock`; `LRU_CLOCK_MAX - o->lru` is
    `unsigned`. -/
def estimateObjectIdleTime (lruclock lru : ℕ) : ℕ :=
  if lru ≤ lruclock then (lruclock - lru) / 100
  else (lruclock + (2 ^ 24 - 1 + (2 ^ 32 - lru)) % 2 ^ 32) / 100

/-- The draws: at most `tries`, until there are five different samples. -/
def drawSamples (rs : RandomizedSet ℕ) (random : ℕ → ℕ) :
    (tries i : ℕ) → List ℕ → Except Fault (List ℕ)
  | 0, _, samples => return samples
  | tries + 1, i, samples =>
    if samples.length < 5 then do
      let sampled_key ← rs.getRandom (random i)
      if sampled_key ∈ samples then drawSamples rs random tries (i + 1) samples
      else drawSamples rs random tries (i + 1) (samples ++ [sampled_key])
    else return samples

/-- A sample goes into the pool unless its key is not in the map or not idle. -/
def offer (m_map : Finmap fun _ : ℕ => LruValue V) (pool : FrozenHot.EvictionPool) (clock key : ℕ) :
    FrozenHot.EvictionPool :=
  match m_map.lookup key with
  | none => pool
  | some o =>
    let idle := estimateObjectIdleTime clock o.lru
    if idle = 0 then pool else pool.add idle key

def evictionPoolPopulate (σ : RedisLRUCache V) (p : Pass) : Except Fault (RedisLRUCache V) := do
  let samples ← drawSamples σ.rs p.random 10 0 []
  return { σ with
    EvictionPool := samples.zipIdx.foldl (fun pool x => offer σ.m_map pool (p.clock x.2) x.1)
      σ.EvictionPool }

/-- The loop of `performEvictions` over the places below `k`, from the last: whether it found a
    victim. -/
def evictFromPool (σ : RedisLRUCache V) : ℕ → Except Fault (Bool × RedisLRUCache V)
  | 0 => return (false, σ)
  | k + 1 =>
    let find_key := (σ.EvictionPool.get k).key
    if find_key = 0 then evictFromPool σ k
    else if find_key ∈ σ.m_map then do
      let r ← σ.rs.remove find_key
      return (true, { σ with
        m_map := σ.m_map.erase find_key, rs := r.2, EvictionPool := σ.EvictionPool.put k ⟨0, 0⟩ })
    else evictFromPool { σ with EvictionPool := σ.EvictionPool.put k ⟨0, 0⟩ } k

/-- `performEvictions`: passes until one finds a victim. -/
def performEvictions (σ : RedisLRUCache V) : List Pass → Except Fault (RedisLRUCache V)
  | [] => throw .diverge
  | p :: passes => do
    let σ ← σ.evictionPoolPopulate p
    let r ← σ.evictFromPool 16
    if r.1 then return r.2 else performEvictions r.2 passes

def find (σ : RedisLRUCache V) (key now : ℕ) : Option V × RedisLRUCache V :=
  match σ.m_map.lookup key with
  | none => (none, σ)
  | some o =>
    (some o.m_value, { σ with m_map := σ.m_map.insert key { o with lru := now % 2 ^ 32 } })

/-- The new key in the map and in the set. -/
def enter (σ : RedisLRUCache V) (key : ℕ) (value : V) (now : ℕ) : RedisLRUCache V :=
  { σ with m_map := σ.m_map.insert key ⟨value, now % 2 ^ 32⟩, rs := (σ.rs.insert key).2 }

def insert (σ : RedisLRUCache V) (key : ℕ) (value : V) (now : ℕ) (passes : List Pass) :
    Except Fault (Bool × RedisLRUCache V) :=
  if key ∈ σ.m_map then return (false, σ)
  else do
    let σ := σ.enter key value now
    if σ.s < σ.n then return (true, { σ with s := σ.s + 1 })
    else
      let σ ← σ.performEvictions passes
      return (true, σ)

def step (σ : RedisLRUCache V) : RedisCall V → Except Fault (RedisReply V × RedisLRUCache V)
  | .find key now => return (.found (σ.find key now).1, (σ.find key now).2)
  | .insert key value now passes => do
    let r ← σ.insert key value now passes
    return (.inserted r.1, r.2)

/-- The calls are over non-zero keys. -/
def NonZero (_ : RedisLRUCache V) (c : RedisCall V) : Prop := c.key ≠ 0

instance (σ : RedisLRUCache V) (c : RedisCall V) : Decidable (NonZero σ c) :=
  inferInstanceAs (Decidable (c.key ≠ 0))

/-- The map and the set hold the same keys, and the set is sound. -/
structure Matched (σ : RedisLRUCache V) : Prop where
  keys : ∀ k, k ∈ σ.m_map ↔ k ∈ σ.rs.vec
  inverse : σ.rs.Inverse

/-- The map, the set and the counter are in step. -/
structure InStep (σ : RedisLRUCache V) : Prop extends Matched σ where
  size : σ.s = σ.m_map.keys.card
  bound : σ.s ≤ σ.n

variable {σ σ' : RedisLRUCache V} {k n : ℕ}

theorem Matched.card (hm : Matched σ) : σ.m_map.keys.card = σ.rs.vec.length := by
  have : σ.m_map.keys = σ.rs.vec.toFinset := by
    ext x
    rw [Finmap.mem_keys, hm.keys, List.mem_toFinset]
  rw [this, List.toFinset_card_of_nodup hm.inverse.nodup]

/-- What an eviction does to the keys: it takes one out. -/
structure Evicts (σ σ' : RedisLRUCache V) : Prop where
  matched : Matched σ'
  fields : σ'.n = σ.n ∧ σ'.s = σ.s
  one : ∃ e ∈ σ.m_map.keys, σ'.m_map.keys = σ.m_map.keys.erase e

/-- Only the pool differs. -/
structure SameBut (σ σ' : RedisLRUCache V) : Prop where
  fields : σ'.n = σ.n ∧ σ'.s = σ.s
  m_map : σ'.m_map = σ.m_map
  rs : σ'.rs = σ.rs

theorem SameBut.refl (σ : RedisLRUCache V) : SameBut σ σ := ⟨⟨rfl, rfl⟩, rfl, rfl⟩

theorem SameBut.trans {σ₁ σ₂ σ₃ : RedisLRUCache V} (h : SameBut σ₁ σ₂) (h' : SameBut σ₂ σ₃) :
    SameBut σ₁ σ₃ :=
  ⟨⟨h'.fields.1.trans h.fields.1, h'.fields.2.trans h.fields.2⟩, h'.m_map.trans h.m_map,
    h'.rs.trans h.rs⟩

theorem SameBut.matched (h : SameBut σ σ') (hm : Matched σ) : Matched σ' :=
  ⟨fun x => by rw [h.m_map, h.rs]; exact hm.keys x, by rw [h.rs]; exact hm.inverse⟩

theorem SameBut.evicts {σ'' : RedisLRUCache V} (h : SameBut σ σ') (he : Evicts σ' σ'') :
    Evicts σ σ'' := by
  refine ⟨he.matched, ⟨he.fields.1.trans h.fields.1, he.fields.2.trans h.fields.2⟩, ?_⟩
  rw [← h.m_map]
  exact he.one

theorem drawSamples_ok {rs : RandomizedSet ℕ} (hne : rs.vec ≠ []) (random : ℕ → ℕ) (tries : ℕ) :
    ∀ (i : ℕ) (samples : List ℕ), ∃ l, drawSamples rs random tries i samples = .ok l := by
  induction tries with
  | zero => exact fun _ samples => ⟨samples, rfl⟩
  | succ tries ih =>
    intro i samples
    obtain ⟨x, -, hx⟩ := RandomizedSet.getRandom_mem (random i) hne
    simp only [drawSamples, hx, ok_bind]
    split_ifs
    · exact ih _ _
    · exact ih _ _
    · exact ⟨samples, rfl⟩

/-- A pass that gets through its draws has offered the samples to the pool, and changed nothing
    else. -/
theorem evictionPoolPopulate_eq {p : Pass} (he : σ.evictionPoolPopulate p = .ok σ') :
    ∃ l : List ℕ, σ' = { σ with
      EvictionPool := l.zipIdx.foldl (fun pool x => offer σ.m_map pool (p.clock x.2) x.1)
        σ.EvictionPool } := by
  obtain ⟨l, -, he⟩ := bind_eq_ok.mp he
  exact ⟨l, (Except.ok.inj he).symm⟩

theorem evictionPoolPopulate_ok (hne : σ.rs.vec ≠ []) (p : Pass) :
    ∃ σ', σ.evictionPoolPopulate p = .ok σ' ∧ SameBut σ σ' := by
  obtain ⟨l, hl⟩ := drawSamples_ok hne p.random 10 0 []
  have hp : ∃ pool, σ.evictionPoolPopulate p = .ok { σ with EvictionPool := pool } :=
    ⟨_, by rw [evictionPoolPopulate, hl]; rfl⟩
  obtain ⟨pool, hp⟩ := hp
  exact ⟨_, hp, ⟨rfl, rfl⟩, rfl, rfl⟩

/-- A pass over the pool evicts one key of the map, or changes nothing but the pool. -/
theorem evictFromPool_ok (k : ℕ) (hm : Matched σ) :
    ∃ b σ', σ.evictFromPool k = .ok (b, σ') ∧ if b then Evicts σ σ' else SameBut σ σ' := by
  induction k generalizing σ with
  | zero => exact ⟨false, σ, rfl, .refl σ⟩
  | succ k ih =>
    simp only [evictFromPool]
    generalize (σ.EvictionPool.get k).key = key
    split_ifs with h0 hk
    · exact ih hm
    · obtain ⟨rs, hr, hinv, hmem⟩ := hm.inverse.remove ((hm.keys key).mp hk)
      refine ⟨true, { σ with
        m_map := σ.m_map.erase key, rs := rs, EvictionPool := σ.EvictionPool.put k ⟨0, 0⟩ }, ?_, ?_⟩
      · simp only [hr, ok_bind, pure_eq_ok]
      · refine ⟨⟨fun x => ?_, hinv⟩, ⟨rfl, rfl⟩, key, Finmap.mem_keys.mpr hk, ?_⟩
        · rw [Finmap.mem_erase, hmem, hm.keys]
          exact and_comm
        · ext x
          rw [Finmap.mem_keys, Finmap.mem_erase, Finset.mem_erase, Finmap.mem_keys]
    · have hs : SameBut σ { σ with EvictionPool := σ.EvictionPool.put k ⟨0, 0⟩ } :=
        ⟨⟨rfl, rfl⟩, rfl, rfl⟩
      obtain ⟨b, σ', h, hb⟩ := ih (hs.matched hm)
      refine ⟨b, σ', h, ?_⟩
      cases b with
      | true => exact hs.evicts hb
      | false => exact hs.trans hb

/-- The eviction loop takes one key out of the map and the set, unless it never ends. -/
theorem performEvictions_ok (passes : List Pass) (hm : Matched σ) (hne : σ.rs.vec ≠ []) :
    (∃ σ', σ.performEvictions passes = .ok σ' ∧ Evicts σ σ') ∨
    σ.performEvictions passes = .error .diverge := by
  induction passes generalizing σ with
  | nil => exact Or.inr rfl
  | cons p passes ih =>
    obtain ⟨σ₁, h1, hs₁⟩ := evictionPoolPopulate_ok hne p
    obtain ⟨b, σ₂, h2, hb⟩ := evictFromPool_ok 16 (hs₁.matched hm)
    simp only [performEvictions, h1, h2, ok_bind]
    cases b with
    | true => exact Or.inl ⟨σ₂, rfl, hs₁.evicts hb⟩
    | false =>
      have hs := hs₁.trans hb
      rcases ih (hs.matched hm) (by rw [hs.rs]; exact hne) with ⟨σ', h, he⟩ | h
      · exact Or.inl ⟨σ', h, hs.evicts he⟩
      · exact Or.inr h

/-- A lookup keeps the keys. -/
theorem InStep.find (h : InStep σ) (key now : ℕ) :
    InStep (σ.find key now).2 ∧ (σ.find key now).2.n = σ.n := by
  unfold RedisLRUCache.find
  cases hl : σ.m_map.lookup key with
  | none => exact ⟨h, rfl⟩
  | some o =>
    have hk : key ∈ σ.m_map := Finmap.mem_of_lookup_eq_some hl
    have hmem : ∀ x v, x ∈ σ.m_map.insert key v ↔ x ∈ σ.m_map := fun x v => by
      rw [Finmap.mem_insert]
      exact ⟨fun hx => hx.elim (fun hx => hx ▸ hk) id, Or.inr⟩
    refine ⟨⟨⟨fun x => (hmem x _).trans (h.keys x), h.inverse⟩, ?_, h.bound⟩, rfl⟩
    have : (σ.m_map.insert key { o with lru := now % 2 ^ 32 }).keys = σ.m_map.keys := by
      ext x
      rw [Finmap.mem_keys, hmem, Finmap.mem_keys]
    rw [this]
    exact h.size

/-- What an insertion of an absent key does to the keys: with room it adds the key, at capacity it
    also takes one out. -/
structure Inserts (k : ℕ) (σ σ' : RedisLRUCache V) : Prop where
  room : σ.s < σ.n → σ'.m_map.keys = Insert.insert k σ.m_map.keys
  full : σ.s = σ.n → ∃ e ∈ Insert.insert k σ.m_map.keys, σ'.m_map.keys =
    (Insert.insert k σ.m_map.keys).erase e

theorem enter_keys (σ : RedisLRUCache V) (k : ℕ) (v : V) (now : ℕ) :
    (σ.enter k v now).m_map.keys = Insert.insert k σ.m_map.keys := by
  ext x
  rw [Finmap.mem_keys, enter, Finmap.mem_insert, Finset.mem_insert, Finmap.mem_keys]

theorem InStep.enter (h : InStep σ) (hn : σ.n < 2 ^ 31) (hk : k ∉ σ.m_map) (v : V) (now : ℕ) :
    Matched (σ.enter k v now) ∧ (σ.enter k v now).rs.vec ≠ [] ∧ (σ.enter k v now).m_map.keys.card =
    σ.s + 1 := by
  have hfit : σ.rs.vec.length < 2 ^ 31 := by
    rw [← h.card, ← h.size]
    exact lt_of_le_of_lt h.bound hn
  have hkv : k ∉ σ.rs.vec := fun hv => hk ((h.keys k).mpr hv)
  obtain ⟨hinv, hvec⟩ := h.inverse.insert hkv hfit
  refine ⟨⟨fun x => ?_, hinv⟩, ?_, ?_⟩
  · rw [RedisLRUCache.enter, Finmap.mem_insert, hvec, List.mem_append, List.mem_singleton, h.keys,
      or_comm]
  · rw [RedisLRUCache.enter, hvec]
    simp
  · rw [enter_keys, Finset.card_insert_of_notMem (by rwa [Finmap.mem_keys]), h.size]

theorem InStep.insert (h : InStep σ) (hn : σ.n < 2 ^ 31) (hk : k ∉ σ.m_map) (v : V) (now : ℕ)
    (passes : List Pass) :
    (∃ σ', σ.insert k v now passes = .ok (true, σ') ∧ InStep σ' ∧ σ'.n = σ.n ∧ Inserts k σ σ') ∨
      σ.insert k v now passes = .error .diverge := by
  obtain ⟨hm, hne, hcard⟩ := h.enter hn hk v now
  have hkeys := enter_keys σ k v now
  by_cases hroom : σ.s < σ.n
  · have hi : σ.insert k v now passes = .ok (true, { σ.enter k v now with s := σ.s + 1 }) := by
      rw [RedisLRUCache.insert, if_neg hk]
      exact if_pos hroom
    exact Or.inl ⟨_, hi, ⟨⟨hm.keys, hm.inverse⟩, hcard.symm, hroom⟩, rfl, fun _ => hkeys,
      fun hs => by omega⟩
  · have hi : σ.insert k v now passes = do
        let σ ← (σ.enter k v now).performEvictions passes
        return (true, σ) := by
      rw [RedisLRUCache.insert, if_neg hk]
      exact if_neg hroom
    rw [hi]
    rcases performEvictions_ok passes hm hne with ⟨σ', he, hev⟩ | he
    · obtain ⟨e, hme, hke⟩ := hev.one
      refine Or.inl ⟨σ', by rw [he, ok_bind, pure_eq_ok], ⟨hev.matched, ?_, ?_⟩, hev.fields.1,
        fun hr => absurd hr hroom, fun _ => ⟨e, hkeys ▸ hme, hkeys ▸ hke⟩⟩
      · rw [hke, Finset.card_erase_of_mem hme, hcard, hev.fields.2, Nat.add_sub_cancel]
        rfl
      · rw [hev.fields.1, hev.fields.2]
        exact h.bound
    · exact Or.inr (by rw [he, error_bind])

/-- Every call returns and keeps the invariant, unless its eviction loop never ends. -/
theorem InStep.step (h : InStep σ) (hn : σ.n < 2 ^ 31) (c : RedisCall V) :
    (∃ o σ', σ.step c = .ok (o, σ') ∧ InStep σ' ∧ σ'.n = σ.n) ∨ σ.step c = .error .diverge := by
  cases c with
  | find key now => exact Or.inl ⟨_, _, rfl, h.find key now⟩
  | insert key value now passes =>
    by_cases hk : key ∈ σ.m_map
    · exact Or.inl ⟨.inserted false, σ, by simp [RedisLRUCache.step, RedisLRUCache.insert, hk], h,
        rfl⟩
    · rcases h.insert hn hk value now passes with ⟨σ', hi, h', hn', -⟩ | hi
      · exact Or.inl ⟨.inserted true, σ', by simp [RedisLRUCache.step, hi], h', hn'⟩
      · exact Or.inr (by simp [RedisLRUCache.step, hi])

theorem InStep.init (capacity : ℕ) : InStep (RedisLRUCache.init capacity : RedisLRUCache V) :=
  ⟨⟨fun _ => iff_of_false Finmap.notMem_empty List.not_mem_nil, RandomizedSet.Inverse.empty⟩, rfl,
    Nat.zero_le _⟩

theorem InStep.run (hn : n < 2 ^ 31) {H : List (RedisCall V × RedisReply V)}
    (hrun : Run RedisLRUCache.step NonZero (RedisLRUCache.init n) H σ) : InStep σ ∧ σ.n = n := by
  refine hrun.invariant (fun σ => InStep σ ∧ σ.n = n) ⟨InStep.init n, rfl⟩ ?_
  rintro s₁ c o s₂ ⟨h, hs⟩ - - hstep
  rcases h.step (by rw [hs]; exact hn) c with ⟨o', σ', hstep', h', hn'⟩ | hstep'
  · rw [hstep] at hstep'
    cases hstep'
    exact ⟨h', hn'.trans hs⟩
  · rw [hstep] at hstep'
    cases hstep'

/-- With a capacity below `2 ^ 31`, the map, the set and the counter stay in step in every run; a
    call returns unless its eviction loop never ends; and the insertion of an absent key adds it and
    takes one key out exactly if the cache was full. -/
theorem map_set_and_counter_in_step (hn : n < 2 ^ 31) {H : List (RedisCall V × RedisReply V)}
    (hrun : Run RedisLRUCache.step NonZero (RedisLRUCache.init n) H σ) :
    InStep σ ∧ (∀ c, (∃ r, σ.step c = .ok r) ∨ σ.step c = .error .diverge) ∧
    ∀ k v now passes b σ', k ∉ σ.m_map → σ.insert k v now passes = .ok (b, σ') →
      b = true ∧
      (σ.s < n → σ'.m_map.keys = Insert.insert k σ.m_map.keys) ∧
      (σ.s = n → ∃ e ∈ Insert.insert k σ.m_map.keys,
        σ'.m_map.keys = (Insert.insert k σ.m_map.keys).erase e) := by
  obtain ⟨h, rfl⟩ := InStep.run hn hrun
  refine ⟨h, fun c => ?_, fun k v now passes b σ' hk hi => ?_⟩
  · rcases h.step hn c with ⟨o, σ', hs, -⟩ | hs
    · exact Or.inl ⟨_, hs⟩
    · exact Or.inr hs
  · rcases h.insert hn hk v now passes with ⟨σ₁, hi', -, -, hins⟩ | hi'
    · rw [hi] at hi'
      cases hi'
      exact ⟨rfl, hins.room, hins.full⟩
    · rw [hi] at hi'
      cases hi'

/-- Two insertions with room for one: the second evicts the first key. -/
theorem map_set_and_counter_in_step_one :
    ∃ σ : RedisLRUCache Unit, InStep σ ∧ σ.m_map.keys = {2} := by
  have hrun : Run RedisLRUCache.step NonZero (RedisLRUCache.init 1 : RedisLRUCache Unit)
      [(.insert 1 () 0 [], .inserted true), (.insert 2 () 900 [⟨fun _ => 0, fun _ => 1000⟩],
          .inserted true)] _ :=
    .cons (by decide) rfl (.cons (by decide) rfl .nil)
  exact ⟨_, (map_set_and_counter_in_step (by decide) hrun).1, rfl⟩

/-- The first `m` insertions of `1, 2, ..`, none of them at capacity. -/
def fills (m : ℕ) : List (RedisCall Unit × RedisReply Unit) :=
  (List.range m).map fun i => (.insert (i + 1) () 0 [], .inserted true)

/-- Filling the cache gives the `i`-th key the place that `i` is as an `int`. -/
theorem fill_run (n m : ℕ) (hm : m ≤ n) : ∃ σ : RedisLRUCache Unit,
    Run RedisLRUCache.step NonZero (RedisLRUCache.init n) (fills m) σ ∧ σ.n = n ∧ σ.s = m ∧
    σ.rs.vec = (List.range m).map (· + 1) ∧ (∀ k, k ∈ σ.m_map → k ≤ m) ∧
    (∀ k, k ∈ σ.rs.PositionMap → k ≤ m) ∧
    ∀ i < m, σ.rs.PositionMap.lookup (i + 1) = some (toInt i) := by
  induction m with
  | zero =>
    exact ⟨_, .nil, rfl, rfl, rfl, fun k h => absurd h Finmap.notMem_empty,
      fun k h => absurd h Finmap.notMem_empty, fun i h => absurd h (Nat.not_lt_zero i)⟩
  | succ m ih =>
    obtain ⟨σ, hrun, hn, hs, hvec, hmap, hposs, hplace⟩ := ih (by omega)
    have hk : m + 1 ∉ σ.m_map := fun h => by have := hmap _ h; omega
    have hp : m + 1 ∉ σ.rs.PositionMap := fun h => by have := hposs _ h; omega
    have hset : σ.rs.insert (m + 1) =
        (true, ⟨σ.rs.PositionMap.insert (m + 1) (toInt m), σ.rs.vec ++ [m + 1]⟩) := by
      rw [RandomizedSet.insert, if_neg hp, hvec, List.length_map, List.length_range]
    have hi : σ.insert (m + 1) () 0 [] =
        .ok (true, { σ.enter (m + 1) () 0 with s := σ.s + 1 }) := by
      rw [RedisLRUCache.insert, if_neg hk]
      exact if_pos (by show σ.s < σ.n; omega)
    refine ⟨{ σ.enter (m + 1) () 0 with s := σ.s + 1 }, ?_, hn, ?_, ?_, fun k h => ?_,
      fun k h => ?_, fun i h => ?_⟩
    · rw [fills, List.range_succ, List.map_append]
      exact .snoc hrun (Nat.succ_ne_zero m)
        (by simp only [RedisLRUCache.step, hi, ok_bind, pure_eq_ok])
    · exact congrArg (· + 1) hs
    · simp only [enter, hset, hvec, List.range_succ, List.map_append, List.map_singleton]
    · rcases Finmap.mem_insert.mp h with rfl | h
      · exact le_refl _
      · exact Nat.le_succ_of_le (hmap k h)
    · simp only [enter, hset] at h
      rcases Finmap.mem_insert.mp h with rfl | h
      · exact le_refl _
      · exact Nat.le_succ_of_le (hposs k h)
    · simp only [enter, hset]
      rcases Nat.lt_succ_iff_lt_or_eq.mp h with h | rfl
      · rw [Finmap.lookup_insert_of_ne _ (by omega)]
        exact hplace i h
      · exact Finmap.lookup_insert _

/-- With room for `2 ^ 31 + 1` keys the place of the last one does not fit in an `int`. -/
theorem position_overflows : ∃ σ : RedisLRUCache Unit,
    Run RedisLRUCache.step NonZero (RedisLRUCache.init (2 ^ 31 + 1)) (fills (2 ^ 31 + 1)) σ ∧
    σ.rs.vec[2 ^ 31]? = some (2 ^ 31 + 1) ∧ σ.rs.PositionMap.lookup (2 ^ 31 + 1) = some (-2 ^ 31) ∧
    ¬ σ.rs.Inverse := by
  obtain ⟨σ, hrun, -, -, hvec, -, -, hplace⟩ := fill_run (2 ^ 31 + 1) (2 ^ 31 + 1) (le_refl _)
  have hlast : σ.rs.vec[2 ^ 31]? = some (2 ^ 31 + 1) := by
    rw [hvec, List.getElem?_map, List.getElem?_range (by omega)]
    rfl
  have hpos := hplace (2 ^ 31) (by omega)
  have hint : toInt ((2 ^ 31 : ℕ) : ℤ) = -2 ^ 31 := by decide
  rw [hint] at hpos
  refine ⟨σ, hrun, hlast, hpos, fun hinv => ?_⟩
  have := (hinv.pos _ _).mpr ⟨_, hlast, rfl⟩
  rw [hpos] at this
  revert this
  decide

end RedisLRUCache
end FrozenHot
