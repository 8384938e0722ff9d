import FrozenHot.Cache.Plain

/-! The FrozenHot list caches `LRU_FHCache` (`hhvm_lru_cache_FH.h`) and `FIFO_FHCache`
    (`FIFO_FH.h`).

    Both files are the same text except for the promotion at the end of `find`, which `FIFO_FHCache`
    has commented out. A shard is in plain mode, partly frozen (`construct_ratio`) or frozen as a
    whole (`construct_tier`); `deconstruct` thaws it. `TValue` is a `shared_ptr`, `none` being
    `nullptr`. The `tbb::concurrent_hash_map` and the CLHT table are `Finmap`s; statistics are left
    out, and of `get_curve` the flag and the marker that `find` and `insert` look at are kept.
    `HANDLE_WRITE` and `RECENCY` are defined, as in the source. -/

namespace FrozenHot
open Schemes

def MARKER_KEY : ℕ := 2
def SPECIAL_KEY : ℕ := 0
def TOMB_KEY : ℕ := 1
def FC_RELAXATION : ℕ := 20

/-- What a `ListNode` of the FH caches holds besides its links. -/
structure NodeData where
  m_key : ℕ
  m_time : ℕ
  deriving DecidableEq

/-! ### The fast hash (`CLHT.h`) -/

/-- The table behind `FashHashAPI`; its keys are `unsigned`. -/
abbrev FastHash (α : Type) := Finmap fun _ : ℕ => Option α

namespace FastHash
variable {α : Type}

/-- `insert`: `clht_put` leaves a present key alone. -/
def put (t : FastHash α) (key : ℕ) (value : Option α) : FastHash α :=
  if key % 2 ^ 32 ∈ t then t else t.insert (key % 2 ^ 32) value

/-- `find`: a null value counts as not found. -/
def get (t : FastHash α) (key : ℕ) : Option α := (t.lookup (key % 2 ^ 32)).join

end FastHash

/-- The fields of a shard other than its nodes. `fresh` is the next node that `new` returns and
    `clock` the next reading of `SPDK_TIME`. -/
structure Core (α : Type) where
  m_maxSize : ℕ
  m_size : ℕ
  m_map : Finmap fun _ : ℕ => HashMapValue (Option α)
  m_fasthash : FastHash α
  fast_hash_ready : Bool
  fast_hash_construct : Bool
  tier_ready : Bool
  tier_no_insert : Bool
  curve_flag : Bool
  movement_counter : ℕ
  eviction_counter : ℕ
  unreachable_counter : ℕ
  m_marker : Ptr
  fresh : ℕ
  clock : ℕ

/-- The fields the constructor sets. -/
def Core.init {α : Type} (maxSize : ℕ) : Core α where
  m_maxSize := maxSize
  m_size := 0
  m_map := ∅
  m_fasthash := ∅
  fast_hash_ready := false
  fast_hash_construct := false
  tier_ready := false
  tier_no_insert := false
  curve_flag := false
  movement_counter := 0
  eviction_counter := 0
  unreachable_counter := 0
  m_marker := .null
  fresh := 0
  clock := 0

/-- A shard: `LRU_FHCache` or `FIFO_FHCache`. -/
structure Shard (α : Type) extends Core α where
  heap : Heap Ptr NodeData

namespace Shard
variable {α : Type}

/-- A list node with `m_key = SPECIAL_KEY`, as the default constructor leaves it. -/
def sentinel (prev next : Ptr) : Option (Cell Ptr NodeData) := some ⟨prev, next, SPECIAL_KEY, 0⟩

/-- The constructor. -/
def init (maxSize : ℕ) : Shard α where
  toCore := Core.init maxSize
  heap := (((Heap.empty.put .m_head (sentinel .null .m_tail)).put .m_tail
    (sentinel .m_head .null)).put .m_fast_head (sentinel .null .m_fast_tail)).put .m_fast_tail
    (sentinel .m_fast_head .null)

/-- `node->m_key`. -/
def keyOf (h : Heap Ptr NodeData) (node : Ptr) : Except Fault ℕ := do
  return (← h.getVal node).m_key

/-- `delink(node); pushFront(node);` if the node is in a list. -/
def promote (h : Heap Ptr NodeData) (node : Ptr) : Except Fault (Heap Ptr NodeData) := do
  if ← isInList h node then
    let h ← delinkChecked h node
    pushFront h node
  else return h

/-- `find` while a curve is taken: a node not touched since the marker moves to the front. -/
def findCurve (σ : Shard α) (node : Ptr) : Except Fault (Shard α) := do
  let last_update := (← σ.heap.getVal node).m_time
  if σ.m_marker = .null then return σ
  if last_update ≤ (← σ.heap.getVal σ.m_marker).m_time then
    let h ← σ.heap.setVal node ⟨← keyOf σ.heap node, σ.clock⟩
    let h ← promote h node
    return { σ with heap := h, movement_counter := σ.movement_counter + 1, clock := σ.clock + 1 }
  else return σ

/-- `find` once the fast hash has not answered. -/
def findSlow (lock : Bool) (σ : Shard α) (key : ℕ) :
    Except Fault (Option (Option α) × Shard α) := do
  match σ.m_map.lookup key with
  | none => return (none, σ)
  | some e =>
    if σ.fast_hash_construct then return (some e.m_value, σ)
    else if σ.curve_flag then return (some e.m_value, ← findCurve σ e.m_listNode)
    else if lock then
      let h ← promote σ.heap e.m_listNode
      return (some e.m_value, { σ with heap := h })
    else return (some e.m_value, σ)

/-- `find`, promoting when `lock` holds: `none` for `false`, else the value found. -/
def findWith (lock : Bool) (σ : Shard α) (key : ℕ) :
    Except Fault (Option (Option α) × Shard α) := do
  assert (¬ (σ.tier_ready || σ.fast_hash_ready) ∨ ¬ σ.curve_flag)
  if σ.tier_ready || σ.fast_hash_ready then
    match σ.m_fasthash.get key with
    | some v => return (some (some v), σ)
    | none => if σ.tier_ready then return (none, σ) else findSlow lock σ key
  else findSlow lock σ key

/-- The loop of `evict` that discards tombstones at the tail; returns the first other node. -/
def dropTombs : ℕ → Heap Ptr NodeData → Except Fault (Ptr × Heap Ptr NodeData)
  | 0, _ => throw .diverge
  | fuel + 1, h => do
    let moribund ← h.getPrev .m_tail
    if (← keyOf h moribund) = TOMB_KEY then
      let h ← delinkChecked h moribund
      dropTombs fuel (h.free moribund)
    else return (moribund, h)

/-- `evict`. `held` is the key whose accessor the caller still holds: accessors are not reentrant,
    so looking that key up again waits forever. -/
def evict (held : Option ℕ) (σ : Shard α) : Except Fault (Bool × Shard α) := do
  let r ← dropTombs (σ.fresh + 1) σ.heap
  if r.1 = .m_head then return (false, { σ with heap := r.2 })
  let h ← delinkChecked r.2 r.1
  let key ← keyOf h r.1
  match σ.m_map.lookup key with
  | none => return (false, { σ with heap := h, unreachable_counter := σ.unreachable_counter + 1 })
  | some _ =>
    if held = some key then throw .diverge
    else return (true, { σ with heap := h.free r.1, m_map := σ.m_map.erase key })

/-! ### `insert`, in its steps -/

/-- `new ListNode(key)` at address `node σ.fresh`. -/
def newNode (σ : Shard α) (key : ℕ) : Shard α :=
  { σ with
    heap := σ.heap.put (.node σ.fresh) (some ⟨.OutOfListMarker, .null, key, σ.clock⟩)
    fresh := σ.fresh + 1
    clock := σ.clock + 1 }

/-- The map insertion: a new key is counted while a freeze is being constructed, a present key has
    its entry overwritten and the call returns `false`. -/
def insertMap (σ : Shard α) (key : ℕ) (value : Option α) (node : Ptr) : Bool × Shard α :=
  let σ' := { σ with m_map := σ.m_map.insert key ⟨value, node⟩ }
  match σ.m_map.lookup key with
  | some _ => (false, σ')
  | none => (true, if σ.fast_hash_construct then
      { σ' with eviction_counter := σ.eviction_counter + 1 } else σ')

/-- The load of `m_size`, and the eviction if the shard is at capacity: `s` and `evictionDone`. -/
def insertEvict (σ : Shard α) (key : ℕ) : Except Fault ((ℕ × Bool) × Shard α) := do
  if σ.m_size ≥ σ.m_maxSize then
    let r ← evict (some key) σ
    return ((σ.m_size, r.1), r.2)
  else return ((σ.m_size, false), σ)

/-- The section under the list lock: refused if the shard was frozen meanwhile, else linked. -/
def insertLink (σ : Shard α) (key : ℕ) (node : Ptr) : Except Fault (Bool × Shard α) := do
  if σ.tier_no_insert then
    return (false, { σ with m_map := σ.m_map.erase key, heap := σ.heap.free node })
  else if σ.curve_flag then
    let h ← σ.heap.setVal node ⟨← keyOf σ.heap node, (← σ.heap.getVal σ.m_marker).m_time⟩
    let h ← pushAfter h σ.m_marker node
    return (true, { σ with heap := h })
  else
    let h ← pushFront σ.heap node
    return (true, { σ with heap := h })

/-- `m_size++` unless an eviction made room. -/
def count (σ : Shard α) (evictionDone : Bool) : Shard α :=
  if evictionDone then σ else { σ with m_size := sizeInc σ.m_size }

/-- Evict once more if the shard is overfull. -/
def correct (σ : Shard α) (s : ℕ) : Except Fault (Shard α) := do
  if s > σ.m_maxSize then
    let r ← evict none σ
    return if r.1 then { r.2 with m_size := sizeDec r.2.m_size } else r.2
  else return σ

/-- The end of `insert`, with the accessor released: count the new entry, and correct an
    overfill. -/
def insertSettle (σ : Shard α) (s : ℕ) (evictionDone : Bool) : Except Fault (Shard α) :=
  correct (σ.count evictionDone) (if evictionDone then s else σ.m_size)

/-- `insert`. -/
def insert (σ : Shard α) (key : ℕ) (value : Option α) : Except Fault (Bool × Shard α) := do
  if σ.tier_no_insert then return (false, σ)
  let node := .node σ.fresh
  let r := insertMap (newNode σ key) key value node
  if ¬ r.1 then return (false, r.2)
  let e ← insertEvict r.2 key
  let l ← insertLink e.2 key node
  if ¬ l.1 then return (false, l.2)
  return (true, ← insertSettle l.2 e.1.1 e.1.2)

/-- `node->m_key = TOMB_KEY`. -/
def setTomb (h : Heap Ptr NodeData) (node : Ptr) : Except Fault (Heap Ptr NodeData) := do
  h.setVal node ⟨TOMB_KEY, (← h.getVal node).m_time⟩

/-- `delete_key`. -/
def delete_key (σ : Shard α) (key : ℕ) : Except Fault (Shard α) := do
  match σ.m_map.lookup key with
  | none => return σ
  | some e =>
    let gone := { σ with m_map := σ.m_map.erase key, m_size := sizeDec σ.m_size }
    if σ.fast_hash_construct then
      return { gone with heap := ← setTomb σ.heap e.m_listNode }
    else if (σ.tier_ready || σ.fast_hash_ready) && (σ.m_fasthash.get key).isSome then
      return { gone with heap := ← setTomb σ.heap e.m_listNode }
    else if ← isInList σ.heap e.m_listNode then
      let h ← delinkChecked σ.heap e.m_listNode
      return { gone with heap := h.free e.m_listNode }
    else return σ

/-! ### Freezing and thawing -/

/-- The assertions that the frozen list is empty. -/
def assertThawed {D : Type} (h : Heap Ptr D) : Except Fault Unit := do
  assert ((← h.getNext .m_fast_head) = .m_fast_tail)
  assert ((← h.getPrev .m_fast_tail) = .m_fast_head)

/-- The pointer surgery of `construct_tier`: the whole main list becomes the frozen list. -/
def spliceAll {D : Type} (h : Heap Ptr D) : Except Fault (Heap Ptr D) := do
  let h ← h.setNext .m_fast_head (← h.getNext .m_head)
  let h ← h.setPrev (← h.getNext .m_head) .m_fast_head
  let h ← h.setPrev .m_fast_tail (← h.getPrev .m_tail)
  let h ← h.setNext (← h.getPrev .m_tail) .m_fast_tail
  let h ← h.setNext .m_head .m_tail
  h.setPrev .m_tail .m_head

/-- The locked section of `construct_tier`. -/
def tierSplice (σ : Shard α) : Except Fault (Shard α) := do
  assertThawed σ.heap
  let h ← spliceAll σ.heap
  return { σ with heap := h, fast_hash_construct := true, tier_no_insert := true }

/-- Take a dead node off the list it is in and delete it. -/
def discard (h : Heap Ptr NodeData) (node : Ptr) : Except Fault (Heap Ptr NodeData) := do
  let h ← if ← isInList h node then delinkChecked h node else pure h
  return h.free node

/-- The loop of `construct_tier` from `temp_node` on: dead nodes go, live ones are copied to the
    fast hash. The second test for a tombstone, after the lookup, repeats the first. -/
def tierFill : ℕ → Shard α → Ptr → Except Fault (Shard α)
  | 0, _, _ => throw .diverge
  | fuel + 1, σ, temp_node =>
    if temp_node = .m_fast_tail then return σ
    else do
      let key ← keyOf σ.heap temp_node
      let next ← σ.heap.getNext temp_node
      if key = TOMB_KEY then
        let h ← delinkChecked σ.heap temp_node
        tierFill fuel { σ with heap := h.free temp_node } next
      else
        match σ.m_map.lookup key with
        | none =>
          let h ← discard σ.heap temp_node
          tierFill fuel { σ with heap := h } next
        | some e => tierFill fuel { σ with m_fasthash := σ.m_fasthash.put key e.m_value } next

/-- `construct_tier` after its locked section. -/
def tierRest (σ : Shard α) : Except Fault (Shard α) := do
  let σ ← tierFill (σ.fresh + 1) σ (← σ.heap.getNext .m_fast_head)
  return { σ with tier_ready := true, fast_hash_construct := false }

/-- `construct_tier`. -/
def construct_tier (σ : Shard α) : Except Fault (Shard α) := do
  let σ ← tierSplice σ
  tierRest σ

/-- The locals of the scan of `construct_ratio`; `stop` is its `break`. -/
structure Scan where
  temp_node : Ptr
  count : ℕ
  first_pass_flag : Bool
  stop : Bool

/-- The cut once enough nodes are copied: the frozen list ends before `temp_node`. -/
def cutCount (h : Heap Ptr NodeData) (temp_node : Ptr) : Except Fault (Heap Ptr NodeData) := do
  let nodeBefore ← h.getPrev (← h.getNext .m_fast_head)
  let nodeAfter := temp_node
  let h ← h.setPrev .m_fast_tail (← h.getPrev temp_node)
  let h ← h.setNext (← h.getPrev temp_node) .m_fast_tail
  let h ← h.setPrev (← h.getNext .m_fast_head) .m_fast_head
  let h ← h.setNext nodeBefore nodeAfter
  h.setPrev nodeAfter nodeBefore

/-- The cut once evictions come close: the frozen list takes the rest of the main list. -/
def cutEvictions (h : Heap Ptr NodeData) : Except Fault (Heap Ptr NodeData) := do
  let node ← h.getNext .m_fast_head
  let h ← h.setPrev .m_fast_tail (← h.getPrev .m_tail)
  let h ← h.setNext (← h.getPrev .m_tail) .m_fast_tail
  let h ← h.setPrev .m_tail (← h.getPrev node)
  let h ← h.setNext (← h.getPrev .m_tail) .m_tail
  h.setPrev node .m_fast_head

/-- One iteration of the scan of `construct_ratio`. -/
def scanStep (FC_size DC_size : ℕ) (σ : Shard α) (l : Scan) : Except Fault (Shard α × Scan) := do
  let count := l.count + 1
  let eviction_count := σ.eviction_counter
  let key ← keyOf σ.heap l.temp_node
  let next ← σ.heap.getNext l.temp_node
  match σ.m_map.lookup key with
  | none =>
    let h ← discard σ.heap l.temp_node
    return ({ σ with heap := h }, { l with temp_node := next, count := count })
  | some e =>
    let σ := { σ with m_fasthash := σ.m_fasthash.put key e.m_value }
    if count > sizeSub FC_size FC_RELAXATION ∧ l.first_pass_flag then
      let h ← cutCount σ.heap next
      return ({ σ with heap := h }, { l with temp_node := next, count := count, stop := true })
    else if eviction_count > sizeSub DC_size FC_RELAXATION ∧ l.first_pass_flag then
      let h ← cutEvictions σ.heap
      return ({ σ with heap := h }, { l with
        temp_node := next, count := count, first_pass_flag := false })
    else return (σ, { l with temp_node := next, count := count })

/-- The scan, until it breaks or reaches the end of the frozen list. -/
def scan (FC_size DC_size : ℕ) : ℕ → Shard α → Scan → Except Fault (Shard α)
  | 0, _, _ => throw .diverge
  | fuel + 1, σ, l =>
    if l.stop ∨ l.temp_node = .m_fast_tail then return σ
    else do
      let r ← scanStep FC_size DC_size σ l
      scan FC_size DC_size fuel r.1 r.2

/-- `construct_ratio` up to its scan. `FC_size` is the value of `FC_ratio * m_maxSize`, so that the
    assertion on `FC_ratio` is one on `FC_size`. -/
def ratioBegin (FC_size : ℕ) (σ : Shard α) : Except Fault (Shard α × Scan) := do
  assert (FC_size ≤ σ.m_maxSize)
  assertThawed σ.heap
  let first ← σ.heap.getNext .m_head
  let h ← σ.heap.setNext .m_fast_head first
  return ({ σ with heap := h, eviction_counter := 0, fast_hash_construct := true },
    ⟨← h.getNext .m_fast_head, 0, true, false⟩)

/-- `construct_ratio` after its scan. -/
def ratioEnd (σ : Shard α) : Shard α :=
  { σ with fast_hash_ready := true, fast_hash_construct := false, eviction_counter := 0 }

/-- `construct_ratio`. -/
def construct_ratio (FC_size : ℕ) (σ : Shard α) : Except Fault (Shard α) := do
  let r ← ratioBegin FC_size σ
  let σ' ← scan FC_size (sizeSub σ.m_maxSize FC_size) (σ.fresh + 2) r.1 r.2
  return ratioEnd σ'

/-- The splice of `deconstruct`: the frozen list goes in front of the main list. -/
def thawSplice {D : Type} (h : Heap Ptr D) : Except Fault (Heap Ptr D) := do
  let node ← h.getNext .m_head
  let h ← h.setPrev (← h.getNext .m_fast_head) .m_head
  let h ← h.setNext (← h.getPrev .m_fast_tail) node
  let h ← h.setNext .m_head (← h.getNext .m_fast_head)
  let h ← h.setPrev node (← h.getPrev .m_fast_tail)
  let h ← h.setNext .m_fast_head .m_fast_tail
  h.setPrev .m_fast_tail .m_fast_head

/-- `deconstruct`. -/
def deconstruct (σ : Shard α) : Except Fault (Shard α) := do
  let first ← σ.heap.getNext .m_fast_head
  let last ← σ.heap.getPrev .m_fast_tail
  assert (first = .m_fast_tail ↔ last = .m_fast_head)
  if first = .m_fast_tail then return σ  -- "no need to deconstruct!"
  let h ← thawSplice σ.heap
  return { σ with
    heap := h
    tier_no_insert := if σ.tier_ready then false else σ.tier_no_insert
    tier_ready := false
    fast_hash_ready := false
    m_fasthash := ∅ }

end Shard

variable {α : Type}

/-- `LRU_FHCache::find`; `lock` is the outcome of its `try_lock`. -/
def LRU_FHCache.find (lock : Bool) (σ : Shard α) (key : ℕ) := σ.findWith lock key

/-- `FIFO_FHCache::find`: the promotion is commented out. -/
def FIFO_FHCache.find (σ : Shard α) (key : ℕ) := σ.findWith false key

end FrozenHot
