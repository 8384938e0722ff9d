import FrozenHot.Cache.Rows
import FrozenHot.Cache.Machine

/-! The three plain list caches: `LRUCache` (`hhvm_lru_cache.h`), `StrictLRUCache` (`strict_lru.h`)
    and `FIFOCache` (`FIFO.h`).

    The three files are the same text except for the promotion in `find`: `LRUCache` promotes when
    its `try_lock` succeeds, `StrictLRUCache` always, `FIFOCache` never (the code is commented out).
    The `tbb::concurrent_hash_map` is a `Finmap`; a call is a function of the whole object. Sampling
    counters are left out, and so is `clear`. -/

namespace FrozenHot
open Schemes

/-- The fields of a plain cache. `heap` holds the nodes and the two sentinels, whose key is never
    initialised (`none`); `fresh` is the next node that `new` returns. -/
structure PlainCache (K V : Type) where
  m_maxSize : ℕ
  m_size : ℕ
  m_map : Finmap fun _ : K => HashMapValue V
  heap : Heap Ptr (Option K)
  fresh : ℕ

namespace PlainCache
variable {K V : Type} [DecidableEq K]

/-- The constructor. -/
def init (maxSize : ℕ) : PlainCache K V where
  m_maxSize := maxSize
  m_size := 0
  m_map := ∅
  heap := (Heap.empty.put .m_head (some ⟨.null, .m_tail, none⟩)).put .m_tail
    (some ⟨.m_head, .null, none⟩)
  fresh := 0

/-- `node->m_key`. -/
def keyOf (h : Heap Ptr (Option K)) (p : Ptr) : Except Fault K := do
  match ← h.getVal p with
  | some k => return k
  | none => throw .deref

/-- `find`, promoting when `lock` holds: the value found, or `none` for `false`. -/
def findWith (lock : Bool) (σ : PlainCache K V) (key : K) :
    Except Fault (Option V × PlainCache K V) := do
  match σ.m_map.lookup key with
  | none => return (none, σ)
  | some e =>
    if lock then
      if ← isInList σ.heap e.m_listNode then
        let h ← delink σ.heap e.m_listNode
        let h ← pushFront h e.m_listNode
        return (some e.m_value, { σ with heap := h })
      else return (some e.m_value, σ)
    else return (some e.m_value, σ)

/-- `evict`. `held` is the key whose accessor the caller holds: accessors are not reentrant, so
    looking that key up again waits forever. -/
def evict (held : K) (σ : PlainCache K V) : Except Fault (PlainCache K V) := do
  let moribund ← σ.heap.getPrev .m_tail
  if moribund = .m_head then
    return σ  -- "List is empty!"
  let h ← delink σ.heap moribund
  let key ← keyOf h moribund
  match σ.m_map.lookup key with
  | none => return { σ with heap := h }  -- "Presumably unreachable"
  | some _ =>
    if key = held then throw .diverge
    else return { σ with heap := h.free moribund, m_map := σ.m_map.erase key }

/-- `new ListNode(key)` at address `node σ.fresh`. -/
def newNode (σ : PlainCache K V) (key : K) : PlainCache K V :=
  { σ with
    heap := σ.heap.put (.node σ.fresh) (some ⟨.OutOfListMarker, .null, some key⟩)
    fresh := σ.fresh + 1 }

/-- The part of `insert` after the new node is linked: count it, and correct an overfill if the
    compare-and-exchange on `m_size` succeeds. -/
def settle (σ : PlainCache K V) (key : K) (s : ℕ) (evictionDone : Bool) :
    Except Fault (PlainCache K V) :=
  let s' := if evictionDone then s else σ.m_size
  -- nothing was evicted: `m_size` is below `m_maxSize`, a `size_t`, and `m_size++` does not wrap
  let σ' := if evictionDone then σ else { σ with m_size := σ.m_size + 1 }
  if s' > σ'.m_maxSize then
    if σ'.m_size = s' then evict key { σ' with m_size := sizeDec s' } else return σ'
  else return σ'

/-- The part of `insert` after the key went into the map: evict if necessary, link, settle. -/
def link (σ : PlainCache K V) (key : K) (node : Ptr) : Except Fault (PlainCache K V) := do
  let s := σ.m_size
  let evictionDone := decide (s ≥ σ.m_maxSize)
  let σ ← if evictionDone then σ.evict key else pure σ
  let h ← pushFront σ.heap node
  settle { σ with heap := h } key s evictionDone

/-- `insert`; the accessor of its key is held until it returns. -/
def insert (σ : PlainCache K V) (key : K) (value : V) : Except Fault (Bool × PlainCache K V) := do
  let node := .node σ.fresh
  let σ := σ.newNode key
  match σ.m_map.lookup key with
  | some _ => return (false, { σ with heap := σ.heap.free node })
  | none =>
    let σ ← link { σ with m_map := σ.m_map.insert key ⟨value, node⟩ } key node
    return (true, σ)

/-- `delete_key`. -/
def delete_key (σ : PlainCache K V) (key : K) : Except Fault (PlainCache K V) := do
  match σ.m_map.lookup key with
  | none => return σ
  | some e =>
    if ← isInList σ.heap e.m_listNode then
      let h ← delink σ.heap e.m_listNode
      return { σ with
        heap := h.free e.m_listNode
        m_map := σ.m_map.erase key
        m_size := sizeDec σ.m_size }
    else return σ

/-- The loop of `snapshotKeys` from `node` on. -/
def walk (h : Heap Ptr (Option K)) : ℕ → Ptr → Except Fault (List K)
  | 0, _ => throw .diverge
  | fuel + 1, node =>
    if node = .m_tail then return []
    else do
      let key ← keyOf h node
      let next ← h.getNext node
      return key :: (← walk h fuel next)

/-- `snapshotKeys`: the keys it appends to the vector. What it reserves for them, `m_size` places
    more than there are, is not modelled. -/
def snapshotKeys (σ : PlainCache K V) : Except Fault (List K) := do
  walk σ.heap (σ.fresh + 1) (← σ.heap.getNext .m_head)

/-- `size`. -/
def size (σ : PlainCache K V) : ℕ := σ.m_size

end PlainCache

variable {K V : Type} [DecidableEq K]

/-- `LRUCache::find`; `lock` is the outcome of its `try_lock`. -/
def LRUCache.find (lock : Bool) (σ : PlainCache K V) (key : K) := σ.findWith lock key

/-- `StrictLRUCache::find`: the lock is waited for. -/
def StrictLRUCache.find (σ : PlainCache K V) (key : K) := σ.findWith true key

/-- `FIFOCache::find`: the promotion is commented out. -/
def FIFOCache.find (σ : PlainCache K V) (key : K) := σ.findWith false key

end FrozenHot
