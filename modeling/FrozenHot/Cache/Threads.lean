import FrozenHot.Cache.PlainSpec
import FrozenHot.Schemes.Pool
import FrozenHot.Schemes.Run

/-! `LRUCache` with calls of `insert`, `find` and `delete_key` in flight (`hhvm_lru_cache.h`;
    `insert`, `evict` and `delete_key` are the same text in `FIFO.h` and `strict_lru.h`).

    A call runs in steps, each of which is one access to the map, to `m_size` or one section under
    the list lock: `insert` puts its key into the map, loads `m_size`, evicts if that is at capacity
    (a locked `delink` of the tail, then the erasure from the map), links its node, counts it, and
    if the count it saw is too large, lowers `m_size` with a compare-and-exchange and evicts once
    more; `find` looks its key up and promotes the node; `delete_key` looks its key up, takes the
    node off the list, erases the key and decrements `m_size`. Steps of different calls interleave
    in any order that the accessors of the map allow: an `insert` holds the accessor of its key
    until it returns, a `find` shares one until it returns and a `delete_key` until the erasure, and
    an erasure waits until nobody else has the accessor of the key. -/

namespace FrozenHot
open Schemes

/-- Where a call is in its code. -/
inductive CallAt (K V : Type) where
  /-- `insert` is called -/
  | insert (key : K) (value : V)
  /-- its key is in the map -/
  | mapped (key : K) (node : Ptr)
  /-- it has loaded `m_size` and found the container at capacity -/
  | full (key : K) (node : Ptr) (s : ℕ)
  /-- it has taken `moribund` off the list -/
  | evicting (key : K) (node : Ptr) (s : ℕ) (moribund : Ptr)
  /-- it is about to link its node -/
  | room (key : K) (node : Ptr) (s : ℕ) (evictionDone : Bool)
  /-- the node is linked, and to be counted -/
  | linked (key : K)
  /-- it is about to test for an overfill -/
  | counted (key : K) (s : ℕ)
  /-- it has the right to reduce the size by one -/
  | overfull (key : K)
  /-- it has taken `moribund` off the list -/
  | shedding (key : K) (moribund : Ptr)
  /-- `find` is called -/
  | find (key : K)
  /-- it has found an entry -/
  | found (key : K) (e : HashMapValue V)
  /-- `delete_key` is called -/
  | delete (key : K)
  /-- it has found an entry -/
  | deleting (key : K) (e : HashMapValue V)
  /-- it has taken the node off the list -/
  | removed (key : K) (e : HashMapValue V)
  /-- the key is erased, the size to be decremented -/
  | erased

/-- What a step tells: nothing, the result of the call, or one of the two messages of `evict`. -/
inductive Told (V : Type) where
  | nothing
  | inserted (b : Bool)
  | found (v : Option V)
  | deleted
  /-- "List is empty!" -/
  | listEmpty
  /-- "Presumably unreachable" -/
  | unreachable

/-- None of the two messages. -/
def Told.quiet {V : Type} : Told V → Bool
  | .listEmpty | .unreachable => false
  | _ => true

/-- A call `i` comes in or does its next step; `lock` is the outcome of a `try_lock`. -/
inductive ThreadStep (K V : Type) where
  | insert (i : ℕ) (key : K) (value : V)
  | find (i : ℕ) (key : K)
  | delete (i : ℕ) (key : K)
  | go (i : ℕ) (lock : Bool)

/-- The cache with its calls in flight. -/
abbrev Threads (K V : Type) := Busy (PlainCache K V) (CallAt K V)

namespace CallAt
variable {K V : Type}

/-- The key of the accessor that is held exclusively. -/
def writes : CallAt K V → Option K
  | .mapped key _ | .full key _ _ | .evicting key _ _ _ | .room key _ _ _ | .linked
      key | .counted key _
  | .overfull key | .shedding key _ => some key
  | _ => none

/-- The entry that is looked at under a shared accessor, with its key. -/
def sees : CallAt K V → Option (K × HashMapValue V)
  | .found key e | .deleting key e | .removed key e => some (key, e)
  | _ => none

/-- The key of the accessor that is held. -/
def holds (c : CallAt K V) : Option K := c.writes.or (c.sees.map Prod.fst)

end CallAt

namespace Threads
variable {K V : Type} [DecidableEq K]

def init (maxSize : ℕ) : Threads K V := ⟨PlainCache.init maxSize, []⟩

/-- The locked section of `evict`: the node taken off the list, if there is one. -/
def delinkTail (h : Heap Ptr (Option K)) : Except Fault (Option (Ptr × Heap Ptr (Option K))) := do
  let moribund ← h.getPrev .m_tail
  if moribund = .m_head then return none
  let h ← delink h moribund
  return some (moribund, h)

/-- The rest of `evict`: whether the key of the node was found, and erased. -/
def eraseKey (σ : PlainCache K V) (moribund : Ptr) : Except Fault (Bool × PlainCache K V) := do
  let key ← PlainCache.keyOf σ.heap moribund
  match σ.m_map.lookup key with
  | none => return (false, σ)
  | some _ => return (true, { σ with heap := σ.heap.free moribund, m_map := σ.m_map.erase key })

/-- `find` under the list lock. -/
def promote (h : Heap Ptr (Option K)) (node : Ptr) : Except Fault (Heap Ptr (Option K)) := do
  if ← isInList h node then
    let h ← delink h node
    pushFront h node
  else return h

/-- The next step of a call: what it tells, and where the call is then, unless it returns. -/
def act (lock : Bool) (σ : PlainCache K V) :
    CallAt K V → Except Fault (Told V × Option (CallAt K V) × PlainCache K V)
  | .insert key value => do
    let node := .node σ.fresh
    let σ := σ.newNode key
    match σ.m_map.lookup key with
    | some _ => return (.inserted false, none, { σ with heap := σ.heap.free node })
    | none =>
      return (.nothing, some (.mapped key node),
        { σ with m_map := σ.m_map.insert key ⟨value, node⟩ })
  | .mapped key node => do
    let s := σ.m_size
    return (.nothing, some (if s ≥ σ.m_maxSize then .full key node s else .room key node s false),
      σ)
  | .full key node s => do
    match ← delinkTail σ.heap with
    | none => return (.listEmpty, some (.room key node s true), σ)
    | some r => return (.nothing, some (.evicting key node s r.1), { σ with heap := r.2 })
  | .evicting key node s moribund => do
    let r ← eraseKey σ moribund
    return (if r.1 then .nothing else .unreachable, some (.room key node s true), r.2)
  | .room key node s evictionDone => do
    let h ← pushFront σ.heap node
    return (.nothing, some (if evictionDone then .counted key s else .linked key),
      { σ with heap := h })
  | .linked key =>
    return (.nothing, some (.counted key σ.m_size), { σ with m_size := sizeInc σ.m_size })
  | .counted key s =>
    if s > σ.m_maxSize ∧ σ.m_size = s then
      return (.nothing, some (.overfull key), { σ with m_size := sizeDec s })
    else return (.inserted true, none, σ)
  | .overfull key => do
    match ← delinkTail σ.heap with
    | none => return (.listEmpty, none, σ)
    | some r => return (.nothing, some (.shedding key r.1), { σ with heap := r.2 })
  | .shedding _ moribund => do
    let r ← eraseKey σ moribund
    return (if r.1 then .inserted true else .unreachable, none, r.2)
  | .find key => do
    match σ.m_map.lookup key with
    | none => return (.found none, none, σ)
    | some e => return (.nothing, some (.found key e), σ)
  | .found _ e => do
    let h ← if lock then promote σ.heap e.m_listNode else pure σ.heap
    return (.found (some e.m_value), none, { σ with heap := h })
  | .delete key => do
    match σ.m_map.lookup key with
    | none => return (.deleted, none, σ)
    | some e => return (.nothing, some (.deleting key e), σ)
  | .deleting key e => do
    if ← isInList σ.heap e.m_listNode then
      let h ← delink σ.heap e.m_listNode
      return (.nothing, some (.removed key e), { σ with heap := h })
    else return (.deleted, none, σ)
  | .removed key e =>
    return (.nothing, some .erased, { σ with
      heap := σ.heap.free e.m_listNode, m_map := σ.m_map.erase key })
  | .erased => return (.deleted, none, { σ with m_size := sizeDec σ.m_size })

def step (s : Threads K V) : ThreadStep K V → Except Fault (Told V × Threads K V)
  | .insert i key value => return (.nothing, { s with calls := s.calls.add i (.insert key value) })
  | .find i key => return (.nothing, { s with calls := s.calls.add i (.find key) })
  | .delete i key => return (.nothing, { s with calls := s.calls.add i (.delete key) })
  | .go i lock => s.go (act lock) i

/-- Nobody has the accessor of the key of a node. -/
def Released (s : Threads K V) (moribund : Ptr) : Prop :=
  match PlainCache.keyOf s.shared.heap moribund with
  | .ok key => ∀ x ∈ s.calls, x.2.holds ≠ some key
  | .error _ => True

instance (s : Threads K V) (moribund : Ptr) : Decidable (s.Released moribund) := by
  unfold Released; split <;> infer_instance

/-- The accessor that the next step of call `i` needs is free. -/
def Free (s : Threads K V) (i : ℕ) : CallAt K V → Prop
  | .insert key _ => ∀ x ∈ s.calls, x.2.holds ≠ some key
  | .find key | .delete key => ∀ x ∈ s.calls, x.2.writes ≠ some key
  | .evicting _ _ _ moribund | .shedding _ moribund => s.Released moribund
  | .removed key _ => ∀ x ∈ s.calls, x.1 ≠ i → x.2.holds ≠ some key
  | _ => True

instance (s : Threads K V) (i : ℕ) : DecidablePred (s.Free i) := by
  intro c; cases c <;> unfold Free <;> infer_instance

/-- The addresses that a call takes up: its own, and that of the node that an `insert` makes. -/
def weight : CallAt K V → ℤ
  | .insert _ _ => 2
  | _ => 1

/-- The addresses in use: the nodes of the map and those of the calls. -/
def footprint (s : Threads K V) : ℤ := s.shared.m_map.keys.card + Pool.total weight s.calls

/-- The steps that can come next. A call comes in only if there are addresses left for it and for a
    node. -/
def Enabled (s : Threads K V) : ThreadStep K V → Prop
  | .insert i _ _ | .find i _ | .delete i _ => i ∉ s.calls.map Prod.fst ∧ s.footprint + 2 ≤ 2 ^ 64
  | .go i _ => ∃ c ∈ s.calls.get i, s.Free i c

instance (s : Threads K V) : DecidablePred s.Enabled := by
  intro e; cases e <;> unfold Enabled <;> infer_instance

/-- The steps without deletions and with at most `T` calls in flight. -/
def Few (T : ℕ) (s : Threads K V) (e : ThreadStep K V) : Prop :=
  s.Enabled e ∧ match e with
    | .insert _ _ _ | .find _ _ => s.calls.length < T
    | .delete _ _ => False
    | .go _ _ => True

instance (T : ℕ) (s : Threads K V) : DecidablePred (s.Few T) := by
  intro e; cases e <;> unfold Few <;> infer_instance

end Threads
end FrozenHot
