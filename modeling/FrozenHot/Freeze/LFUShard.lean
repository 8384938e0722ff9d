import FrozenHot.Cache.LFU
import FrozenHot.Freeze.Calls

/-! `LFU_FHCache` (`lfu_FH.h`).

    An LFU cache whose most frequent classes can be frozen: their keys are copied to the fast hash,
    and the classes are moved to a list of their own from `m_fast_head` to `m_fast_tail`.
    `deconstruct` numbers the frozen classes anew, above the main list, and puts them in front of
    it. As in the list caches `none` is `nullptr`, statistics are left out, and of `get_curve` the
    flag and the threshold are kept that the calls look at. `LFUCore.n` is `m_maxSize`. A `goto` of
    `find` and a test of `insert` are for a shard that another thread froze meanwhile; one thread
    alone does not get there. -/

namespace FrozenHot
open Schemes

/-- `LFU_FHCache`. -/
structure LFUShard (α : Type) extends LFUCore (Option α) where
  m_fasthash : FastHash α
  FH_ready : Bool
  FH_construct : Bool
  tier_ready : Bool
  tier_no_insert : Bool
  curve_flag : Bool
  m_threshold : ℤ

namespace LFUShard
variable {α : Type}

/-- The constructor. -/
def init (capacity : ℕ) : LFUShard α where
  toLFUCore := { LFUCore.init capacity with
    classes := ((LFUCore.init capacity : LFUCore (Option α)).classes.put .m_fast_head
      (some ⟨.null, .m_fast_tail, 0⟩)).put .m_fast_tail (some ⟨.m_fast_head, .null, 0⟩)
    rings := ((LFUCore.init capacity : LFUCore (Option α)).rings.put (.list .m_fast_head)
      (some LFUCore.blank)).put (.list .m_fast_tail) (some LFUCore.blank) }
  m_fasthash := ∅
  FH_ready := false
  FH_construct := false
  tier_ready := false
  tier_no_insert := false
  curve_flag := false
  m_threshold := 0

/-- `find` once the fast hash has not answered. -/
def findSlow (σ : LFUShard α) (key : ℕ) : Except Fault (Option (Option α) × LFUShard α) := do
  match σ.m_map.lookup key with
  | none => return (none, σ)
  | some e =>
    if σ.FH_construct then return (some e.val, σ)
    else if e.listNode = .null then throw .assertion
    else if σ.curve_flag then
      let _fre ← σ.classes.getVal e.listNode
      assert (σ.m_threshold ≠ 0)
      return (some e.val, σ)
    else
      let c ← LFUCore.touch σ.toLFUCore key e
      return (some e.val, { σ with toLFUCore := c })

/-- `find`: `none` for `false`, else the value found. -/
def find (σ : LFUShard α) (key : ℕ) : Except Fault (Option (Option α) × LFUShard α) := do
  assert (¬ (σ.tier_ready || σ.FH_ready) ∨ ¬ σ.curve_flag)
  if σ.FH_ready then
    match σ.m_fasthash.get key with
    | some v => return (some (some v), σ)
    | none => if σ.tier_ready then return (none, σ) else findSlow σ key
  else findSlow σ key

/-- `insert`. -/
def insert (σ : LFUShard α) (key : ℕ) (value : Option α) : Except Fault (Bool × LFUShard α) := do
  if σ.tier_no_insert || σ.curve_flag then return (false, σ)
  let node := .node σ.fresh
  let c := LFUCore.newFreNode σ.toLFUCore key
  if key ∈ c.m_map then
    return (false, { σ with toLFUCore := { c with rings := c.rings.free node } })
  let c := { c with m_map := c.m_map.insert key ⟨value, .null, node⟩ }
  -- the flags are read again under the lock
  if σ.tier_no_insert || σ.curve_flag then
    return (false, { σ with toLFUCore := { c with
      m_map := c.m_map.erase key, rings := c.rings.free node } })
  let r ← LFUCore.enlist c key value node
  return (r.1, { σ with toLFUCore := r.2 })

/-! ### Freezing and thawing -/

/-- Take a ring node out of its ring and delete it; `construct_ratio` tests `isInList` first. -/
def discard (ratio : Bool) (h : Heap FrePtr ℕ) (in_node : FrePtr) : Except Fault (Heap FrePtr ℕ) :=
  do
  let h ← if ratio ∧ (← h.getPrev in_node) = .null then pure h else delinkNode .null h in_node
  return h.free in_node

/-- The inner loop of the two `construct`s over the ring of `out_node`, from `in_node` on, with the
    count. A key that is not in the map goes; `construct_tier` does not count it. -/
def fillRing (ratio : Bool) (out_node : Ptr) :
    ℕ → LFUShard α → FrePtr → ℕ → Except Fault (ℕ × LFUShard α)
  | 0, _, _, _ => throw .diverge
  | fuel + 1, σ, in_node, count =>
    if in_node = .list out_node then return (count, σ)
    else do
      let key ← σ.rings.getVal in_node
      let next ← σ.rings.getNext in_node
      match σ.m_map.lookup key with
      | none =>
        let r ← discard ratio σ.rings in_node
        fillRing ratio out_node fuel { σ with rings := r } next (if ratio then count + 1 else count)
      | some e =>
        fillRing ratio out_node fuel { σ with m_fasthash := σ.m_fasthash.put key e.val }
          next (count + 1)

/-- The outer loop of `construct_tier`. -/
def tierFill : ℕ → LFUShard α → Ptr → Except Fault (LFUShard α)
  | 0, _, _ => throw .diverge
  | fuel + 1, σ, out_node =>
    if out_node = .m_fast_tail then return σ
    else do
      let in_node ← σ.rings.getNext (.list out_node)
      let r ← fillRing false out_node (σ.fresh + 1) σ in_node 0
      let next ← r.2.classes.getNext out_node
      tierFill fuel r.2 next

/-- The locked section of `construct_tier`. -/
def tierSplice (σ : LFUShard α) : Except Fault (LFUShard α) := do
  Shard.assertThawed σ.classes
  let h ← Shard.spliceAll σ.classes
  return { σ with classes := h, FH_construct := true, tier_no_insert := true }

/-- `construct_tier`. -/
def construct_tier (σ : LFUShard α) : Except Fault (LFUShard α) := do
  let σ ← tierSplice σ
  let out_node ← σ.classes.getNext .m_fast_head
  let σ ← tierFill (σ.fresh + 1) σ out_node
  return { σ with FH_ready := true, tier_ready := true, FH_construct := false }

/-- The outer loop of `construct_ratio`: the first class that is not copied. -/
def ratioFill (FC_size : ℕ) : ℕ → LFUShard α → Ptr → ℕ → Except Fault (Ptr × LFUShard α)
  | 0, _, _, _ => throw .diverge
  | fuel + 1, σ, out_node, count =>
    if count < FC_size then do
      let in_node ← σ.rings.getNext (.list out_node)
      let r ← fillRing true out_node (σ.fresh + 1) σ in_node count
      let out_node ← r.2.classes.getNext out_node
      assert (out_node ≠ .m_tail)
      ratioFill FC_size fuel r.2 out_node r.1
    else return (out_node, σ)

/-- The cut of `construct_ratio`: the classes before `out_node` become the frozen list. -/
def ratioSplice (h : Heap Ptr ℤ) (out_node : Ptr) : Except Fault (Heap Ptr ℤ) := do
  let h ← h.setNext .m_fast_head (← h.getNext .m_head)
  let h ← h.setPrev (← h.getNext .m_head) .m_fast_head
  let h ← h.setPrev .m_fast_tail (← h.getPrev out_node)
  let h ← h.setNext (← h.getPrev out_node) .m_fast_tail
  let h ← h.setNext .m_head out_node
  h.setPrev out_node .m_head

/-- `construct_ratio`. `FC_size` is the value of `FC_ratio * m_maxSize`; the assertion `FC_ratio <
    0.999` is one on `FC_size`, which is 0 or less than 0.999 of the capacity then. -/
def construct_ratio (FC_size : ℕ) (σ : LFUShard α) : Except Fault (LFUShard α) := do
  assert (FC_size = 0 ∨ 1000 * FC_size < 999 * σ.n)
  Shard.assertThawed σ.classes
  let σ := { σ with FH_construct := true }
  let out_node ← σ.classes.getNext .m_head
  let r ← ratioFill FC_size (σ.fresh + 1) σ out_node 0
  let h ← ratioSplice r.2.classes r.1
  return { r.2 with classes := h, FH_ready := true, FH_construct := false }

/-- The loop of `deconstruct`: from the last frozen class to the first they get the frequencies
    `max_freq + 1`, `max_freq + 2`, and so on; `count` is an `int`. -/
def renumber (max_freq : ℤ) : ℕ → Heap Ptr ℤ → Ptr → ℤ → Except Fault (Heap Ptr ℤ)
  | 0, _, _, _ => throw .diverge
  | fuel + 1, h, moribund, count =>
    if moribund = .m_fast_head then return h
    else do
      let count := toInt (count + 1)
      assert (moribund ≠ .null)
      let h ← h.setVal moribund (max_freq + count)
      let prev ← h.getPrev moribund
      renumber max_freq fuel h prev count

/-- `deconstruct`. -/
def deconstruct (σ : LFUShard α) : Except Fault (LFUShard α) := do
  let first ← σ.classes.getNext .m_fast_head
  let last ← σ.classes.getPrev .m_fast_tail
  assert (first = .m_fast_tail ↔ last = .m_fast_head)
  if first = .m_fast_tail then return σ  -- "no need to deconstruct!"
  let max_freq ← σ.classes.getVal (← σ.classes.getNext .m_head)
  let h ← renumber max_freq (σ.fresh + 1) σ.classes last 0
  let h ← Shard.thawSplice h
  return { σ with
    classes := h
    tier_no_insert := if σ.tier_ready then false else σ.tier_no_insert
    tier_ready := false
    FH_ready := false
    FH_construct := false
    m_fasthash := ∅ }

end LFUShard

variable {α : Type}

/-- One call of `LFU_FHCache`; it does not override `delete_key`, which does nothing then. -/
def LFU_FHCache.call (σ : LFUShard α) : FHCall α → Except Fault (FHResp α × LFUShard α)
  | .find k => do let r ← σ.find k; return (.found r.1, r.2)
  | .insert k v => do let r ← σ.insert k v; return (.inserted r.1, r.2)
  | .get k v => do
    let r ← Client.get (LFUShard.find · k) (LFUShard.insert · k (some v)) σ
    return (.got r.1, r.2)
  | .delete_key _ => return (.done, σ)
  | .construct_tier => do let σ ← σ.construct_tier; return (.done, σ)
  | .construct_ratio FC_size => do let σ ← σ.construct_ratio FC_size; return (.done, σ)
  | .deconstruct => do let σ ← σ.deconstruct; return (.done, σ)

end FrozenHot
