import FrozenHot.Freeze.Shard
import Mathlib.Data.List.DropRight

/-! The shard over lists: what the calls of a FrozenHot list cache do, without pointers.

    The frozen list and the main list are lists of items (a node with its key) and every call is a
    total function on them, or `none` where the call aborts. It is the level at which the modes of
    the shard are reasoned about; that the code does this is shown separately. -/

namespace FrozenHot
open Schemes

/-- A list node with the key it carries. -/
structure Item where
  node : Ptr
  key : ℕ
  deriving DecidableEq

/-- A shard whose two lists are lists. -/
structure ListShard (α : Type) extends Core α where
  frozen : List Item
  main : List Item

namespace ListShard
variable {α : Type}

/-- The list without a node. -/
def detach (n : Ptr) (l : List Item) : List Item := l.filter (·.node ≠ n)

/-- The list with a node turned into a tombstone. -/
def bury (n : Ptr) (l : List Item) : List Item :=
  l.map fun x => if x.node = n then { x with key := TOMB_KEY } else x

/-- Both lists together. -/
def items (τ : ListShard α) : List Item := τ.frozen ++ τ.main

def init (maxSize : ℕ) : ListShard α where
  toCore := Core.init maxSize
  frozen := []
  main := []

/-- Move a node to the front of the main list, from whichever list it is on. -/
def promote (τ : ListShard α) (n : Ptr) : ListShard α :=
  match τ.items.find? (·.node = n) with
  | none => τ
  | some x => { τ with frozen := detach n τ.frozen, main := x :: detach n τ.main }

def findSlow (lock : Bool) (τ : ListShard α) (key : ℕ) : Option (Option α) × ListShard α :=
  match τ.m_map.lookup key with
  | none => (none, τ)
  | some e =>
    (some e.m_value, if lock && !τ.fast_hash_construct then τ.promote e.m_listNode else τ)

def find (lock : Bool) (τ : ListShard α) (key : ℕ) : Option (Option α) × ListShard α :=
  if τ.tier_ready || τ.fast_hash_ready then
    match τ.m_fasthash.get key with
    | some v => (some (some v), τ)
    | none => if τ.tier_ready then (none, τ) else findSlow lock τ key
  else findSlow lock τ key

/-- The main list without the tombstones at its tail. -/
def trim (l : List Item) : List Item := l.rdropWhile (·.key = TOMB_KEY)

/-- `none` when the victim is the key whose accessor the caller holds. -/
def evict (held : Option ℕ) (τ : ListShard α) : Option (Bool × ListShard α) :=
  match (trim τ.main).getLast? with
  | none => some (false, { τ with main := [] })
  | some x =>
    if x.key ∈ τ.m_map then
      if held = some x.key then none
      else some (true, { τ with main := (trim τ.main).dropLast, m_map := τ.m_map.erase x.key })
    else some (false, { τ with
      main := (trim τ.main).dropLast, unreachable_counter := τ.unreachable_counter + 1 })

/-- What an eviction can do. -/
theorem evict_cases {held : Option ℕ} {τ : ListShard α} {r : Bool × ListShard α}
    (he : τ.evict held = some r) :
    (trim τ.main = [] ∧ r = (false, { τ with main := [] })) ∨
    (∃ A x, trim τ.main = A ++ [x] ∧ x.key ∈ τ.m_map ∧ held ≠ some x.key ∧
      r = (true, { τ with main := A, m_map := τ.m_map.erase x.key })) ∨
    (∃ A x, trim τ.main = A ++ [x] ∧ x.key ∉ τ.m_map ∧
      r = (false, { τ with main := A, unreachable_counter := τ.unreachable_counter + 1 })) := by
  rcases List.eq_nil_or_concat (trim τ.main) with ht | ⟨A, x, ht⟩
  · left
    simpa [evict, ht, eq_comm] using he
  · right
    rw [List.concat_eq_append] at ht
    by_cases hx : x.key ∈ τ.m_map
    · left
      by_cases hheld : held = some x.key
      · simp [evict, ht, hx, hheld] at he
      · exact ⟨A, x, ht, hx, hheld, by simpa [evict, ht, hx, hheld, eq_comm] using he⟩
    · right
      exact ⟨A, x, ht, hx, by simpa [evict, ht, hx, eq_comm] using he⟩

/-- An eviction that does not return has chosen the key the caller holds. -/
theorem evict_eq_none {held : Option ℕ} {τ : ListShard α} (he : τ.evict held = none) :
    ∃ A x, trim τ.main = A ++ [x] ∧ x.key ∈ τ.m_map ∧ held = some x.key := by
  rcases List.eq_nil_or_concat (trim τ.main) with ht | ⟨A, x, ht⟩
  · simp [evict, ht] at he
  · rw [List.concat_eq_append] at ht
    by_cases hx : x.key ∈ τ.m_map
    · exact ⟨A, x, ht, hx, by simpa [evict, ht, hx] using he⟩
    · simp [evict, ht, hx] at he

/-- The eviction before the new node is linked. -/
def makeRoom (τ : ListShard α) (key : ℕ) : Option (Bool × ListShard α) :=
  if τ.m_size ≥ τ.m_maxSize then evict (some key) τ else some (false, τ)

theorem trim_prefix (l : List Item) : trim l <+: l := List.rdropWhile_prefix _ l

/-- Making room keeps the frozen list, drops items of the main list at most, and leaves the entry of
    the key being inserted alone. -/
theorem makeRoom_keeps {τ : ListShard α} {k : ℕ} {r : Bool × ListShard α}
    (he : τ.makeRoom k = some r) : r.2.frozen = τ.frozen ∧ r.2.main <+: τ.main ∧
      r.2.m_map.lookup k = τ.m_map.lookup k ∧ r.2.tier_no_insert = τ.tier_no_insert := by
  unfold makeRoom at he
  split at he
  · have hpre := trim_prefix τ.main
    rcases evict_cases he with ⟨ht, rfl⟩ | ⟨A, x, ht, hx, hheld, rfl⟩ | ⟨A, x, ht, hx, rfl⟩
    · exact ⟨rfl, List.nil_prefix, rfl, rfl⟩
    · rw [ht] at hpre
      refine ⟨rfl, (List.prefix_append A [x]).trans hpre, ?_, rfl⟩
      exact Finmap.lookup_erase_ne (fun e => hheld (by rw [e]))
    · rw [ht] at hpre
      exact ⟨rfl, (List.prefix_append A [x]).trans hpre, rfl, rfl⟩
  · cases he; exact ⟨rfl, List.prefix_rfl, rfl, rfl⟩

/-- `m_size++` unless an eviction made room. -/
def count (τ : ListShard α) (evictionDone : Bool) : ListShard α :=
  if evictionDone then τ else { τ with m_size := sizeInc τ.m_size }

/-- Evict once more if the shard is overfull. -/
def correct (τ : ListShard α) (s : ℕ) : Option (ListShard α) :=
  if s > τ.m_maxSize then
    (evict none τ).map fun r => if r.1 then { r.2 with m_size := sizeDec r.2.m_size } else r.2
  else some τ

/-- The end of `insert`: count the new entry, and correct an overfill. -/
def settle (τ : ListShard α) (s : ℕ) (evictionDone : Bool) : Option (ListShard α) :=
  correct (τ.count evictionDone) (if evictionDone then s else τ.m_size)

/-- The correction holds no accessor, so it always returns. -/
theorem correct_some (τ : ListShard α) (s : ℕ) : ∃ τ', τ.correct s = some τ' := by
  by_cases hover : s > τ.m_maxSize
  · rw [correct, if_pos hover]
    cases he : evict none τ with
    | none =>
      obtain ⟨_, _, _, _, hheld⟩ := evict_eq_none he
      cases hheld
    | some r => exact ⟨_, rfl⟩
  · exact ⟨_, if_neg hover⟩

theorem settle_some (τ : ListShard α) (s : ℕ) (d : Bool) : ∃ τ', τ.settle s d = some τ' :=
  correct_some _ _

/-- The new key in the map, before its node is linked. -/
def place (τ : ListShard α) (key : ℕ) (value : Option α) : ListShard α :=
  { τ with
    m_map := τ.m_map.insert key ⟨value, .node τ.fresh⟩
    eviction_counter := if τ.fast_hash_construct && decide (key ∉ τ.m_map) then
      τ.eviction_counter + 1 else τ.eviction_counter
    fresh := τ.fresh + 1
    clock := τ.clock + 1 }

def insert (τ : ListShard α) (key : ℕ) (value : Option α) : Option (Bool × ListShard α) :=
  if τ.tier_no_insert then some (false, τ)
  else if key ∈ τ.m_map then some (false, τ.place key value)
  else do
    let r ← makeRoom (τ.place key value) key
    let τ' ← settle { r.2 with main := ⟨.node τ.fresh, key⟩ :: r.2.main } τ.m_size r.1
    return (true, τ')

def delete_key (τ : ListShard α) (key : ℕ) : ListShard α :=
  match τ.m_map.lookup key with
  | none => τ
  | some e =>
    let n := e.m_listNode
    let gone := { τ with m_map := τ.m_map.erase key, m_size := sizeDec τ.m_size }
    if τ.fast_hash_construct ||
        ((τ.tier_ready || τ.fast_hash_ready) && (τ.m_fasthash.get key).isSome) then
      { gone with frozen := bury n τ.frozen, main := bury n τ.main }
    else if n ∈ τ.items.map Item.node then
      { gone with frozen := detach n τ.frozen, main := detach n τ.main }
    else τ

theorem detach_none {n : Ptr} {l : List Item} (hn : n ∉ l.map Item.node) : detach n l = l := by
  rw [detach, List.filter_eq_self]
  intro x hx
  simp only [decide_eq_true_eq]
  rintro rfl
  exact hn (List.mem_map_of_mem hx)

theorem detach_middle {x : Item} {A B : List Item} (hx : x.node ∉ (A ++ B).map Item.node) :
    detach x.node (A ++ x :: B) = A ++ B := by
  rw [List.map_append, List.mem_append, not_or] at hx
  have h1 := detach_none hx.1
  have h2 := detach_none hx.2
  rw [detach] at h1 h2 ⊢
  rw [List.filter_append, List.filter_cons_of_neg (by simp), h1, h2]

@[simp] theorem node_bury (n : Ptr) (l : List Item) :
    (bury n l).map Item.node = l.map Item.node := by
  rw [bury, List.map_map]
  refine List.map_congr_left fun x _ => ?_
  simp only [Function.comp]; split <;> rfl

/-- A node a freeze keeps: not a tombstone, and its key is in the map. -/
def Live (m : Finmap fun _ : ℕ => HashMapValue (Option α)) (x : Item) : Prop :=
  x.key ≠ TOMB_KEY ∧ x.key ∈ m

instance (m : Finmap fun _ : ℕ => HashMapValue (Option α)) (x : Item) : Decidable (Live m x) :=
  inferInstanceAs (Decidable (_ ∧ _))

/-- Copy the entries of the items to the fast hash, in order. -/
def copy (m : Finmap fun _ : ℕ => HashMapValue (Option α)) (t : FastHash α) (l : List Item) :
    FastHash α :=
  l.foldl (fun t x => match m.lookup x.key with
    | some e => t.put x.key e.m_value
    | none => t) t

def construct_tier (τ : ListShard α) : Option (ListShard α) :=
  if τ.frozen = [] then
    let kept := τ.main.filter (Live τ.m_map)
    some { τ with
      frozen := kept, main := [], m_fasthash := copy τ.m_map τ.m_fasthash kept
      tier_ready := true, tier_no_insert := true, fast_hash_construct := false }
  else none

/-- The scan of `construct_ratio` with no call interleaved: the nodes kept before the cut, and the
    rest; `none` when it runs off the list. -/
def split (m : Finmap fun _ : ℕ => HashMapValue (Option α)) (limit : ℕ) :
    ℕ → List Item → Option (List Item × List Item)
  | _, [] => none
  | count, x :: l =>
    if x.key ∈ m then
      if count + 1 > limit then some ([x], l)
      else (split m limit (count + 1) l).map fun r => (x :: r.1, r.2)
    else split m limit (count + 1) l

/-- The scan starts at the first node, which must not be a dead one. -/
def construct_ratio (FC_size : ℕ) (τ : ListShard α) : Option (ListShard α) :=
  match τ.main with
  | [] => none
  | x :: _ =>
    if FC_size ≤ τ.m_maxSize ∧ τ.frozen = [] ∧ x.key ∈ τ.m_map then
      (split τ.m_map (sizeSub FC_size FC_RELAXATION) 0 τ.main).map fun r =>
        { τ with
          frozen := r.1, main := r.2, m_fasthash := copy τ.m_map τ.m_fasthash r.1
          fast_hash_ready := true, fast_hash_construct := false, eviction_counter := 0 }
    else none

def deconstruct (τ : ListShard α) : ListShard α :=
  if τ.frozen = [] then τ
  else { τ with
    frozen := [], main := τ.frozen ++ τ.main, m_fasthash := ∅
    tier_no_insert := if τ.tier_ready then false else τ.tier_no_insert
    tier_ready := false, fast_hash_ready := false }

end ListShard

end FrozenHot
