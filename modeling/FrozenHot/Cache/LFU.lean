import FrozenHot.Cache.ListNode
import FrozenHot.Cache.Machine
import Mathlib.Data.Finmap

/-! `LFUCache` (`lfu.h`), and what `LFU_FHCache` (`lfu_FH.h`) has in common with it.

    The keys of one frequency form a class: a `ListNode` with the frequency and a ring of
    `freListNode`s around the sentinel `list` inside it. The classes are a doubly linked list from
    `m_head` to `m_tail`, the highest frequency first, and a map entry points to the class and to
    the ring node of its key. The texts of the two files differ in `find` and `insert` only by the
    tests for a frozen shard, so that the locked parts are stated once here. `gLock` and the
    statistics are left out. -/

namespace FrozenHot
open Schemes

/-- `freListNode*`: null, the sentinel `list` of a class, or a node from `new`. -/
inductive FrePtr where
  | null
  | list (listNode : Ptr)
  | node (id : ℕ)
  deriving DecidableEq, Repr

/-- `HashMapValue` of the LFU caches. -/
structure LFUValue (V : Type) where
  val : V
  listNode : Ptr
  freNode : FrePtr

/-- The fields of an LFU cache: `classes` holds the `ListNode`s with their `fre`, `rings` the
    `freListNode`s with their `m_key`; `fresh` is the next address that `new` returns. -/
structure LFUCore (V : Type) where
  n : ℕ
  s : ℕ
  m_map : Finmap fun _ : ℕ => LFUValue V
  classes : Heap Ptr ℤ
  rings : Heap FrePtr ℕ
  fresh : ℕ

/-- The template `delink`, with its assertions. -/
def delinkNode {P D : Type} [DecidableEq P] (null : P) (h : Heap P D) (node : P) :
    Except Fault (Heap P D) := do
  assert (node ≠ null)
  let prev ← h.getPrev node
  let next ← h.getNext node
  assert (prev ≠ null)
  let h ← h.setNext prev next
  assert (next ≠ null)
  let h ← h.setPrev next prev
  let h ← h.setPrev node null
  h.setNext node null

/-- `listNode->pushFront(node)`. -/
def ringPushFront (h : Heap FrePtr ℕ) (listNode : Ptr) (node : FrePtr) :
    Except Fault (Heap FrePtr ℕ) := do
  let oldRealHead ← h.getNext (.list listNode)
  let h ← h.setPrev node (.list listNode)
  let h ← h.setNext node oldRealHead
  let h ← h.setPrev oldRealHead node
  h.setNext (.list listNode) node

/-- `listNode->isEmpty()`. -/
def ringEmpty (h : Heap FrePtr ℕ) (listNode : Ptr) : Except Fault Bool := do
  let next ← h.getNext (.list listNode)
  let prev ← h.getPrev (.list listNode)
  return next = .list listNode ∧ prev = .list listNode

/-- `pushForward`: puts `new_node` in front of `node`. -/
def pushForward (h : Heap Ptr ℤ) (node new_node : Ptr) : Except Fault (Heap Ptr ℤ) := do
  assert (node ≠ .m_head)
  let f ← h.getVal new_node
  let g ← h.getVal node
  assert (f > g)
  let prev ← h.getPrev node
  let h ← h.setPrev new_node prev
  let h ← h.setNext new_node node
  let h ← h.setNext prev new_node
  h.setPrev node new_node

namespace LFUCore
variable {V : Type}

/-- A `ListNode` from the default constructor: `list` is not linked to itself. -/
def blank : Cell FrePtr ℕ := ⟨.null, .null, 0⟩

/-- The constructor of `LFUCache`. -/
def init (capacity : ℕ) : LFUCore V where
  n := capacity
  s := 0
  m_map := ∅
  classes := (Heap.empty.put .m_head (some ⟨.null, .m_tail, 0⟩)).put .m_tail
    (some ⟨.m_head, .null, 0⟩)
  rings := (Heap.empty.put (.list .m_head) (some blank)).put (.list .m_tail) (some blank)
  fresh := 0

/-- `new freListNode(key)`. -/
def newFreNode (σ : LFUCore V) (key : ℕ) : LFUCore V :=
  { σ with rings := σ.rings.put (.node σ.fresh) (some ⟨.null, .null, key⟩), fresh := σ.fresh + 1 }

/-- `new ListNode(f)`; the parameter of the constructor is an `int`. -/
def newListNode (σ : LFUCore V) (f : ℤ) : LFUCore V :=
  { σ with
    classes := σ.classes.put (.node σ.fresh) (some ⟨.null, .null, toInt f⟩)
    rings := σ.rings.put (.list (.node σ.fresh))
      (some ⟨.list (.node σ.fresh), .list (.node σ.fresh), 0⟩)
    fresh := σ.fresh + 1 }

/-- `delete listNode`. -/
def deleteListNode (σ : LFUCore V) (listNode : Ptr) : LFUCore V :=
  { σ with classes := σ.classes.free listNode, rings := σ.rings.free (.list listNode) }

/-- `hashAccessor->second.listNode = listNode`. -/
def setListNode (σ : LFUCore V) (key : ℕ) (e : LFUValue V) (listNode : Ptr) : LFUCore V :=
  { σ with m_map := σ.m_map.insert key { e with listNode := listNode } }

/-- `find` with room for a class of the next frequency: a class of its own is counted up in place,
    else a new class is split off. -/
def raise (σ : LFUCore V) (key : ℕ) (e : LFUValue V) (fre : ℤ) : Except Fault (LFUCore V) := do
  let prev ← σ.rings.getPrev e.freNode
  let next ← σ.rings.getNext e.freNode
  if prev = next then
    assert (e.freNode ≠ .list e.listNode)
    let h ← σ.classes.setVal e.listNode (fre + 1)
    return { σ with classes := h }
  else
    let r ← delinkNode .null σ.rings e.freNode
    let newnode := .node σ.fresh
    let σ := newListNode { σ with rings := r } (fre + 1)
    let r ← ringPushFront σ.rings newnode e.freNode
    let h ← pushForward σ.classes e.listNode newnode
    return setListNode { σ with rings := r, classes := h } key e newnode

/-- `find` where the next frequency has a class: the key moves there, and an emptied class goes. -/
def join (σ : LFUCore V) (key : ℕ) (e : LFUValue V) (prev : Ptr) : Except Fault (LFUCore V) := do
  let r ← delinkNode .null σ.rings e.freNode
  let σ := setListNode σ key e prev
  let r ← ringPushFront r prev e.freNode
  if ← ringEmpty r e.listNode then
    let h ← delinkNode .null σ.classes e.listNode
    return deleteListNode { σ with rings := r, classes := h } e.listNode
  else return { σ with rings := r }

/-- The locked part of `find`: a key in a ring moves to the class of the next frequency. -/
def touch (σ : LFUCore V) (key : ℕ) (e : LFUValue V) : Except Fault (LFUCore V) := do
  let fre ← σ.classes.getVal e.listNode
  if (← σ.rings.getPrev e.freNode) ≠ .null then
    let prev ← σ.classes.getPrev e.listNode
    let prevFre ← σ.classes.getVal prev
    if prev = .m_head ∨ prevFre > fre + 1 then raise σ key e fre
    else if prevFre ≤ fre then throw .assertion
    else join σ key e prev
  else return σ

/-- The class that `insert` puts a new key into: the last one if its frequency is 1, else a new
    one. -/
def classOne (σ : LFUCore V) (node : FrePtr) : Except Fault (Ptr × LFUCore V) := do
  let lfreNode ← σ.classes.getPrev .m_tail
  if (← σ.classes.getVal lfreNode) = 1 then
    let r ← ringPushFront σ.rings lfreNode node
    return (lfreNode, { σ with rings := r })
  else
    let lfreNode := .node σ.fresh
    let σ := newListNode σ 1
    let r ← ringPushFront σ.rings lfreNode node
    let h ← pushForward σ.classes .m_tail lfreNode
    return (lfreNode, { σ with rings := r, classes := h })

/-- The eviction of `insert`: the last key of the last class. -/
def evict (σ : LFUCore V) : Except Fault (Bool × LFUCore V) := do
  let moribund ← σ.classes.getPrev .m_tail
  assert (moribund ≠ .m_head)
  let temp_node ← σ.rings.getPrev (.list moribund)
  assert (temp_node ≠ .list moribund)
  let r ← delinkNode .null σ.rings temp_node
  let key ← r.getVal temp_node
  match σ.m_map.lookup key with
  | none => return (false, { σ with rings := r })
  | some _ => return (true, { σ with rings := r.free temp_node, m_map := σ.m_map.erase key })

/-- The locked part of `insert`, and the eviction. -/
def enlist (σ : LFUCore V) (key : ℕ) (value : V) (node : FrePtr) :
    Except Fault (Bool × LFUCore V) := do
  let (lfreNode, σ) ← classOne σ node
  let σ := setListNode σ key ⟨value, .null, node⟩ lfreNode
  let size := σ.s
  assert (size ≤ σ.n)
  if size < σ.n then return (true, { σ with s := σ.s + 1 })
  else evict σ

end LFUCore

/-- The calls of a client. -/
inductive LFUCall (V : Type) where
  | find (key : ℕ)
  | insert (key : ℕ) (value : V)

/-- Their results; `found none` is `false`. -/
inductive LFUResp (V : Type) where
  | found (value : Option V)
  | inserted (b : Bool)
  deriving DecidableEq

/-- `LFUCache`. -/
abbrev LFUCache (V : Type) := LFUCore V

namespace LFUCache
variable {V : Type}

/-- `find`: `none` for `false`, else the value found. -/
def find (σ : LFUCache V) (key : ℕ) : Except Fault (Option V × LFUCache V) := do
  match σ.m_map.lookup key with
  | none => return (none, σ)
  | some e =>
    if e.listNode = .null then throw .assertion
    else
      let σ ← LFUCore.touch σ key e
      return (some e.val, σ)

def insert (σ : LFUCache V) (key : ℕ) (value : V) : Except Fault (Bool × LFUCache V) := do
  let node := .node σ.fresh
  let σ := LFUCore.newFreNode σ key
  if key ∈ σ.m_map then return (false, { σ with rings := σ.rings.free node })
  else LFUCore.enlist { σ with m_map := σ.m_map.insert key ⟨value, .null, node⟩ } key value node

def call (σ : LFUCache V) : LFUCall V → Except Fault (LFUResp V × LFUCache V)
  | .find key => do
    let r ← find σ key
    return (.found r.1, r.2)
  | .insert key value => do
    let r ← insert σ key value
    return (.inserted r.1, r.2)

theorem call_find {σ σ' : LFUCache V} {k : ℕ} {v : Option V} (h : find σ k = .ok (v, σ')) :
    call σ (.find k) = .ok (.found v, σ') := by
  rw [call, h]
  rfl

theorem call_insert {σ σ' : LFUCache V} {k : ℕ} {v : V} {b : Bool}
    (h : insert σ k v = .ok (b, σ')) :
    call σ (.insert k v) = .ok (.inserted b, σ') := by
  rw [call, h]
  rfl

end LFUCache
end FrozenHot
