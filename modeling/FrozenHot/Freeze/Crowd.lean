import FrozenHot.Freeze.RepFreeze
import FrozenHot.Schemes.Pool
import FrozenHot.Schemes.Run

/-! Calls of `insert` in flight next to `construct_tier` and `deconstruct`.

    A call runs in steps: the early test of `tier_no_insert`, the map insertion, the load of
    `m_size` with the eviction, the locked section that tests `tier_no_insert` again and links the
    node, the counting, and the correction of an overfill. Steps of different calls interleave in
    any order, and the locked splice, the rest of `construct_tier` and `deconstruct` may come
    between any two. -/

namespace FrozenHot
open Schemes

/-- Where an `insert` is in its code. `N` stands for the nodes. -/
inductive InsertAt (α N : Type) where
  /-- past the early test -/
  | entered (key : ℕ) (value : Option α)
  /-- the key is in the map, its accessor held -/
  | mapped (key : ℕ) (node : N)
  /-- `m_size` is loaded, and an entry evicted if the shard was at capacity -/
  | evicted (key : ℕ) (node : N) (s : ℕ) (evictionDone : Bool)
  /-- the node is linked, the accessor released -/
  | linked (s : ℕ) (evictionDone : Bool)
  /-- the entry is counted -/
  | counted (s : ℕ)

/-- What a step tells the caller. -/
inductive Outcome where
  /-- nothing yet -/
  | running
  /-- `false`, the shard being frozen -/
  | refused
  /-- `false`, the key being present -/
  | present
  /-- `true` -/
  | inserted
  deriving DecidableEq

/-- A call `i` comes in or does its next step, or the thread that freezes and thaws does its own. -/
inductive CrowdStep (α : Type) where
  | enter (i key : ℕ) (value : Option α)
  | go (i : ℕ)
  | splice
  | rest
  | deconstruct

variable {α N : Type}

/-- The call a step belongs to. -/
def CrowdStep.call : CrowdStep α → Option ℕ
  | .enter i _ _ | .go i => some i
  | .splice | .rest | .deconstruct => none

namespace InsertAt

/-- The key whose accessor is held, with the node of its entry. -/
def entry : InsertAt α N → Option (ℕ × N)
  | .mapped key node | .evicted key node _ _ => some (key, node)
  | _ => none

/-- The key whose accessor is held. -/
def held (c : InsertAt α N) : Option ℕ := c.entry.map Prod.fst

/-- The call has evicted an entry and not linked its own. -/
def inDebt : InsertAt α N → Bool
  | .evicted _ _ _ evictionDone => evictionDone
  | _ => false

/-- The place without the node. -/
def forget : InsertAt α N → InsertAt α Unit
  | .entered key value => .entered key value
  | .mapped key _ => .mapped key ()
  | .evicted key _ s evictionDone => .evicted key () s evictionDone
  | .linked s evictionDone => .linked s evictionDone
  | .counted s => .counted s

@[simp] theorem held_forget (c : InsertAt α N) : c.forget.held = c.held := by cases c <;> rfl

@[simp] theorem inDebt_forget (c : InsertAt α N) : c.forget.inDebt = c.inDebt := by cases c <;> rfl

end InsertAt

/-- The steps that can come next: a key is put into the map when no other call holds its accessor,
    and one thread freezes and thaws. -/
def CrowdStep.Enabled (calls : Pool (InsertAt α N)) (constructing : Bool) : CrowdStep α → Prop
  | .enter i key _ => i ∉ calls.map Prod.fst ∧ ValidKey key
  | .go i => ∀ key value, calls.get i = some (.entered key value) → ∀ x ∈ calls, x.2.held ≠ some key
  | .splice | .deconstruct => constructing = false
  | .rest => constructing = true

/-- A shard with calls of `insert` in flight. -/
abbrev Crowd (α : Type) := Busy (Shard α) (InsertAt α Ptr)

namespace Crowd

def init (maxSize : ℕ) : Crowd α := ⟨Shard.init maxSize, []⟩

/-- The next step of a call: what it tells the caller, and where the call is then, unless it
    returns. -/
def act (σ : Shard α) : InsertAt α Ptr → Except Fault (Outcome × Option (InsertAt α Ptr) × Shard α)
  | .entered key value => do
    let node := .node σ.fresh
    let r := Shard.insertMap (σ.newNode key) key value node
    if r.1 then return (.running, some (.mapped key node), r.2) else return (.present, none, r.2)
  | .mapped key node => do
    let r ← σ.insertEvict key
    return (.running, some (.evicted key node r.1.1 r.1.2), r.2)
  | .evicted key node s evictionDone => do
    let r ← σ.insertLink key node
    if r.1 then return (.running, some (.linked s evictionDone), r.2) else
      return (.refused, none, r.2)
  | .linked s evictionDone =>
    return (.running, some (.counted (if evictionDone then s else σ.m_size)), σ.count evictionDone)
  | .counted s => do
    let σ ← σ.correct s
    return (.inserted, none, σ)

def step (s : Crowd α) : CrowdStep α → Except Fault (Outcome × Crowd α)
  | .enter i key value =>
    if s.shared.tier_no_insert then return (.refused, s)
    else return (.running, { s with calls := s.calls.add i (.entered key value) })
  | .go i => s.go act i
  | .splice => do
    let σ ← s.shared.tierSplice
    return (.running, { s with shared := σ })
  | .rest => do
    let σ ← s.shared.tierRest
    return (.running, { s with shared := σ })
  | .deconstruct => do
    let σ ← s.shared.deconstruct
    return (.running, { s with shared := σ })

def Enabled (s : Crowd α) (e : CrowdStep α) : Prop := e.Enabled s.calls s.shared.fast_hash_construct

/-- The condition on the splice: no call in flight has evicted an entry and not passed the locked
    section yet. -/
def Gentle (s : Crowd α) (e : CrowdStep α) : Prop :=
  s.Enabled e ∧ (e = .splice → ∀ x ∈ s.calls, x.2.inDebt = false)

end Crowd
end FrozenHot
