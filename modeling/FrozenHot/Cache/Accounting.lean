import FrozenHot.Cache.Store

/-! The size accounting of `LRUCache` under any interleaving of its calls.

    `m_size` is the length of the list but for what the calls in flight owe. With at most `maxSize`
    calls in flight and no deletions it never drops below `maxSize` once it is there, so that an
    eviction always finds a node. -/

namespace FrozenHot.Threads
open Schemes

variable {K V : Type} [DecidableEq K] {σ σ' : PlainCache K V} {R : List Ptr} {i : ℕ}
variable {c : CallAt K V} {p q : Pool (CallAt K V)}

/-! ### What the calls owe -/

/-- The nodes that a call has off the list. -/
def offNodes : CallAt K V → List Ptr
  | .mapped _ node | .full _ node _ | .room _ node _ _ => [node]
  | .evicting _ node _ moribund => [moribund, node]
  | .shedding _ moribund => [moribund]
  | .removed _ e => [e.m_listNode]
  | _ => []

/-- The node that a call has made and not linked yet, with its key. -/
def newNode : CallAt K V → Option (K × Ptr)
  | .mapped key node | .full key node _ | .evicting key node _ _ | .room key node _ _ =>
    some (key, node)
  | _ => none

/-- The difference that a call makes between the length of the list and `m_size`. -/
def owes : CallAt K V → ℤ
  | .evicting _ _ _ _ | .room _ _ _ true | .removed _ _ | .erased => -1
  | .linked _ | .overfull _ => 1
  | _ => 0

/-- The call is about to take the last node off the list. -/
def evicts : CallAt K V → Bool
  | .full _ _ _ | .overfull _ => true
  | _ => false

def off (p : Pool (CallAt K V)) : List Ptr := p.flatMap (offNodes ·.2)

/-- The store holds the nodes that calls have off the list, and what they look at is in the map. -/
structure Stored (σ : PlainCache K V) (p : Pool (CallAt K V)) (R : List Ptr) : Prop where
  store : Store σ R (off p)
  sees : ∀ x ∈ p, ∀ k e, x.2.sees = some (k, e) → σ.m_map.lookup k = some e

/-- Moreover `m_size` is the length of the list but for what the calls owe. -/
structure Sane (σ : PlainCache K V) (p : Pool (CallAt K V)) (R : List Ptr) :
    Prop extends Stored σ p R where
  size : (R.length : ℤ) = σ.m_size + Pool.total owes p

theorem sane_init (maxSize : ℕ) : Sane (PlainCache.init maxSize : PlainCache K V) [] [] :=
  ⟨⟨store_init maxSize, by simp⟩, by simp [PlainCache.init]⟩

theorem Stored.perm (hs : Stored σ p R) (hp : p.Perm q) : Stored σ q R :=
  ⟨hs.store.perm (hp.flatMap_right _), fun x hx => hs.sees x (hp.mem_iff.mpr hx)⟩

theorem Sane.perm (hs : Sane σ p R) (hp : p.Perm q) : Sane σ q R :=
  ⟨hs.toStored.perm hp, by rw [hs.size, Pool.total_perm _ hp]⟩

/-- A call that comes in has done nothing yet. -/
theorem Stored.add (hs : Stored σ p R) (h1 : offNodes c = []) (h2 : c.sees = none) :
    Stored σ ((i, c) :: p) R := by
  refine ⟨by simpa [off, h1] using hs.store, fun x hx => ?_⟩
  rcases List.mem_cons.mp hx with rfl | hx
  · simp [h2]
  · exact hs.sees x hx

theorem Sane.add (hs : Sane σ p R) (h1 : offNodes c = []) (h2 : c.sees = none) (h3 : owes c = 0) :
    Sane σ ((i, c) :: p) R :=
  ⟨hs.toStored.add h1 h2, by simpa [h3] using hs.size⟩

/-! ### One step -/

/-- The difference between the length of the list and `m_size`, but for what the calls owe. -/
def balance (σ : PlainCache K V) (p : Pool (CallAt K V)) (R : List Ptr) : ℤ :=
  R.length - σ.m_size - Pool.total owes p

/-- The step of the call does not make `m_size` wrap. -/
def Incs (S : ℕ) (c : CallAt K V) : Prop := ∀ k, c = .linked k → S + 1 < 2 ^ 64

/-- What the step of a call needs: an eviction finds a node, and the counter does not wrap. -/
structure Supplied (σ : PlainCache K V) (c : CallAt K V) (R : List Ptr) : Prop where
  node : evicts c = true → R ≠ []
  inc : Incs σ.m_size c
  dec : c = .erased → 0 < σ.m_size

/-- The key of the last node of the list. -/
def lastKey (h : Heap Ptr (Option K)) : Option K := do
  let m ← h.prev .m_tail
  if m = .m_head then none else (h.val m).join

/-- The key whose node the next step of a call takes from its place in the list: the victim of an
    eviction, a node that is promoted, or one that is deleted. -/
def moves (lock : Bool) (σ : PlainCache K V) : CallAt K V → Option K
  | .full _ _ _ | .overfull _ => lastKey σ.heap
  | .found key _ => if lock then some key else none
  | .deleting key _ => some key
  | _ => none

/-- What the next step of a call makes of the list. -/
inductive Turns (lock : Bool) (σ : PlainCache K V) (c : CallAt K V) (R : List Ptr) : List Ptr → Prop
  | stays : moves lock σ c = none → Turns lock σ c R R
  | links {k : K} {n : Ptr} : moves lock σ c = none → newNode c = some (k, n) →
      Turns lock σ c R (n :: R)
  | takes {k : K} {A B : List Ptr} {n : Ptr} : moves lock σ c = some k → R = A ++ n :: B →
      σ.heap.val n = some (some k) → Turns lock σ c R (A ++ B)
  | promotes {k : K} {A B : List Ptr} {n : Ptr} : moves lock σ c = some k → c.holds = some k →
      R = A ++ n :: B → σ.heap.val n = some (some k) → Turns lock σ c R (n :: (A ++ B))
  | misses {k : K} : moves lock σ c = some k → (∀ n ∈ R, σ.heap.val n ≠ some (some k)) →
      Turns lock σ c R R

/-- The step of call `i` at `c`, next to the calls `q`, returns and keeps the store and the keys of
    the nodes on the list; with what it needs it says none of the messages of `evict` and keeps the
    balance. -/
def Steps (lock : Bool) (σ : PlainCache K V) (i : ℕ) (c : CallAt K V) (q : Pool (CallAt K V))
    (R : List Ptr) : Prop :=
  ∃ o d σ' R', act lock σ c = .ok (o, d, σ') ∧ Stored σ' (d.toList.map (i, ·) ++ q) R' ∧
    (Turns lock σ c R R' ∧ ∀ n ∈ R, σ'.heap.val n = σ.heap.val n) ∧
    (Supplied σ c R → o.quiet = true ∧
      balance σ' (d.toList.map (i, ·) ++ q) R' = balance σ ((i, c) :: q) R)

variable {lock : Bool} {key : K} {value : V} {node m : Ptr} {s : ℕ} {e : HashMapValue V}

/-- A call that goes on to another place, with the same nodes. -/
theorem Stored.goes {d : CallAt K V} (hs : Stored σ ((i, c) :: q) R) (h1 : offNodes d = offNodes c)
    (h2 : ∀ k e, d.sees = some (k, e) → σ.m_map.lookup k = some e) : Stored σ ((i, d) :: q) R := by
  refine ⟨by simpa [off, h1] using hs.store, fun x hx => ?_⟩
  rcases List.mem_cons.mp hx with rfl | hx
  · exact h2
  · exact hs.sees x (by simp [hx])

/-- A call that returns and leaves nothing behind. -/
theorem Stored.returns (hs : Stored σ ((i, c) :: q) R) (h1 : offNodes c = []) : Stored σ q R :=
  ⟨by simpa [off, h1] using hs.store, fun x hx => hs.sees x (by simp [hx])⟩

/-- The step of a call that has looked at nothing, to a place where it looks at nothing. -/
theorem Stored.moves {d : CallAt K V} {R' : List Ptr} (hs : Stored σ ((i, c) :: q) R)
    (hst : Store σ' R' (offNodes d ++ off q)) (hm : σ'.m_map = σ.m_map) (hd : d.sees = c.sees) :
    Stored σ' ((i, d) :: q) R' := by
  refine ⟨by simpa [off] using hst, fun x hx k e he => ?_⟩
  rw [hm]
  rcases List.mem_cons.mp hx with rfl | hx
  · exact hs.sees (i, c) (by simp) k e (hd ▸ he)
  · exact hs.sees x (by simp [hx]) k e he

theorem steps_insert (hs : Stored σ ((i, .insert key value) :: q) R) :
    Steps lock σ i (.insert key value) q R := by
  have hs' := hs.returns rfl
  have hval : ∀ n ∈ R, (σ.newNode key).heap.val n = σ.heap.val n := fun n hn => by
    rw [PlainCache.newNode, Heap.val_put, if_neg]
    rintro rfl
    exact hs.store.fresh_notMem (List.mem_append_left _ hn)
  cases hk : σ.m_map.lookup key with
  | some e =>
    have hk' : (σ.newNode key).m_map.lookup key = some e := hk
    refine ⟨.inserted false, none,
      { σ.newNode key with heap := (σ.newNode key).heap.free (.node σ.fresh) },
      R, by simp [act, hk'], ⟨hs'.store.insert_present key, hs'.sees⟩, ⟨.stays rfl, fun n hn => ?_⟩,
      fun _ => ⟨rfl, by simp [balance, owes, PlainCache.newNode]⟩⟩
    rw [Heap.val_free, if_neg]
    · exact hval n hn
    · rintro rfl
      exact hs.store.fresh_notMem (List.mem_append_left _ hn)
  | none =>
    have hk' : (σ.newNode key).m_map.lookup key = none := hk
    refine ⟨.nothing, some (.mapped key (.node σ.fresh)),
      { σ.newNode key with m_map := (σ.newNode key).m_map.insert key ⟨value, .node σ.fresh⟩ }, R,
      by simp [act, hk'], ⟨hs'.store.insert_new hk value, fun x hx k e he => ?_⟩,
      ⟨.stays rfl, hval⟩, fun _ => ⟨rfl, by simp [balance, owes, PlainCache.newNode]⟩⟩
    rcases List.mem_cons.mp hx with rfl | hx
    · cases he
    · have hlk := hs'.sees x hx k e he
      have hne : k ≠ key := by rintro rfl; rw [hk] at hlk; cases hlk
      exact (Finmap.lookup_insert_of_ne _ hne).trans hlk

theorem steps_mapped (hs : Stored σ ((i, .mapped key node) :: q) R) :
    Steps lock σ i (.mapped key node) q R := by
  refine ⟨_, _, σ, R, rfl, ?_⟩
  by_cases hfull : σ.m_size ≥ σ.m_maxSize
  · rw [if_pos hfull]
    exact ⟨hs.goes rfl nofun, ⟨.stays rfl, fun _ _ => rfl⟩, fun _ => ⟨rfl, rfl⟩⟩
  · rw [if_neg hfull]
    exact ⟨hs.goes rfl nofun, ⟨.stays rfl, fun _ _ => rfl⟩, fun _ => ⟨rfl, rfl⟩⟩

theorem lastKey_nil (hs : Store σ [] (off p)) : lastKey σ.heap = none := by
  simp [lastKey, hs.prev_tail.mpr rfl]

theorem lastKey_last (hs : Store σ (R ++ [m]) (off p)) (hk : σ.heap.val m = some (some key)) :
    lastKey σ.heap = some key := by
  simp [lastKey, hs.last.1, hs.last.2, hk]

/-- An eviction moves the last node. -/
theorem turns_last (hs : Store σ (R ++ [m]) (off p)) (hc : moves lock σ c = lastKey σ.heap) :
    Turns lock σ c (R ++ [m]) R := by
  obtain ⟨k, v, hk, -⟩ := hs.entry m (by simp)
  rw [lastKey_last hs hk] at hc
  simpa using Turns.takes (A := R) (B := []) hc rfl hk

theorem steps_full (hs : Stored σ ((i, .full key node s) :: q) R) :
    Steps lock σ i (.full key node s) q R := by
  rcases List.eq_nil_or_concat R with rfl | ⟨R', m, rfl⟩
  · have hd := hs.store.delinkTail_nil
    exact ⟨.listEmpty, some (.room key node s true), σ, [], by simp [act, hd], hs.goes rfl nofun,
      ⟨.stays (lastKey_nil hs.store), nofun⟩, fun h => absurd rfl (h.node rfl)⟩
  · rw [List.concat_eq_append] at hs ⊢
    obtain ⟨h', hd, hv, hst⟩ := hs.store.delinkTail
    exact ⟨.nothing, some (.evicting key node s m), { σ with heap := h' }, R', by simp [act, hd],
      hs.moves hst rfl rfl, ⟨turns_last hs.store rfl, fun n _ => hv n⟩,
      fun _ => ⟨rfl, by simp [balance, owes]; ring⟩⟩

theorem steps_over (hs : Stored σ ((i, .overfull key) :: q) R) :
    Steps lock σ i (.overfull key) q R := by
  rcases List.eq_nil_or_concat R with rfl | ⟨R', m, rfl⟩
  · have hd := hs.store.delinkTail_nil
    exact ⟨.listEmpty, none, σ, [], by simp [act, hd], hs.returns rfl,
      ⟨.stays (lastKey_nil hs.store), nofun⟩, fun h => absurd rfl (h.node rfl)⟩
  · rw [List.concat_eq_append] at hs ⊢
    obtain ⟨h', hd, hv, hst⟩ := hs.store.delinkTail
    exact ⟨.nothing, some (.shedding key m), { σ with heap := h' }, R', by simp [act, hd],
      hs.moves hst rfl rfl, ⟨turns_last hs.store rfl, fun n _ => hv n⟩,
      fun _ => ⟨rfl, by simp [balance, owes]; ring⟩⟩

/-- An erasure that waits for the accessor of the key keeps what the others look at. -/
theorem Stored.sees_erase (hs : Stored σ ((i, c) :: q) R) (hfree : ∀ x ∈ q, x.2.holds ≠ some key) :
    ∀ x ∈ q, ∀ k e, x.2.sees = some (k, e) → (σ.m_map.erase key).lookup k = some e := by
  intro x hx k e he
  have hne : k ≠ key := by
    rintro rfl
    refine hfree x hx ?_
    have hw : x.2.writes = none := by cases h : x.2 <;> simp_all [CallAt.sees, CallAt.writes]
    simp [CallAt.holds, hw, he]
  exact (Finmap.lookup_erase_ne hne).trans (hs.sees x (by simp [hx]) k e he)

omit [DecidableEq K] in
/-- The key of a node that is to be erased is not held by others. -/
theorem Released.others {k : K} (h : Released ⟨σ, (i, c) :: q⟩ m)
    (hk : PlainCache.keyOf σ.heap m = .ok k) : ∀ x ∈ q, x.2.holds ≠ some k := by
  simp only [Released, hk] at h
  exact fun x hx => h x (by simp [hx])

/-- Deleting a node off the list keeps the keys of the others. -/
theorem Stored.val_free (hs : Stored σ ((i, c) :: q) R) (hm : m ∈ offNodes c) :
    ∀ n ∈ R, (σ.heap.free m).val n = σ.heap.val n := by
  intro n hn
  rw [Heap.val_free, if_neg]
  rintro rfl
  exact (List.nodup_append'.mp hs.store.nodup).2.2 hn (by simp [off, hm])

theorem steps_evicting (hs : Stored σ ((i, .evicting key node s m) :: q) R)
    (hfree : Released ⟨σ, (i, .evicting key node s m) :: q⟩ m) :
    Steps lock σ i (.evicting key node s m) q R := by
  obtain ⟨k, hkey, -, he, hst⟩ := hs.store.eraseKey
  refine ⟨.nothing, some (.room key node s true), _, R, by simp [act, he], ⟨hst, fun x hx => ?_⟩,
    ⟨.stays rfl, hs.val_free (by simp [offNodes])⟩, fun _ => ⟨rfl, rfl⟩⟩
  rcases List.mem_cons.mp hx with rfl | hx
  · nofun
  · exact hs.sees_erase (hfree.others hkey) x hx

theorem steps_shedding (hs : Stored σ ((i, .shedding key m) :: q) R)
    (hfree : Released ⟨σ, (i, .shedding key m) :: q⟩ m) : Steps lock σ i (.shedding key m) q R := by
  obtain ⟨k, hkey, -, he, hst⟩ := hs.store.eraseKey
  exact ⟨.inserted true, none, _, R, by simp [act, he], ⟨hst, hs.sees_erase (hfree.others hkey)⟩,
    ⟨.stays rfl, hs.val_free (by simp [offNodes])⟩, fun _ => ⟨rfl, by simp [balance, owes]⟩⟩

theorem steps_room {done : Bool} (hs : Stored σ ((i, .room key node s done) :: q) R) :
    Steps lock σ i (.room key node s done) q R := by
  obtain ⟨h', hp, hv, hst⟩ := hs.store.push
  refine ⟨.nothing, some (if done then .counted key s else .linked key), { σ with heap := h' },
    node :: R, by simp [act, hp], hs.moves ?_ rfl ?_, ⟨.links rfl rfl, fun n _ => hv n⟩,
    fun _ => ⟨rfl, ?_⟩⟩
  · cases done <;> exact hst
  · cases done <;> rfl
  · cases done <;> simp [balance, owes] <;> ring

theorem steps_linked (hs : Stored σ ((i, .linked key) :: q) R) :
    Steps lock σ i (.linked key) q R := by
  refine ⟨.nothing, some (.counted key σ.m_size), { σ with m_size := sizeInc σ.m_size }, R, rfl,
    hs.moves (hs.store.withSize _) rfl rfl, ⟨.stays rfl, fun _ _ => rfl⟩, fun h => ⟨rfl, ?_⟩⟩
  simp [balance, owes, sizeInc_of_lt (h.inc key rfl)]
  ring

theorem steps_counted (hs : Stored σ ((i, .counted key s) :: q) R) :
    Steps lock σ i (.counted key s) q R := by
  by_cases hcas : s > σ.m_maxSize ∧ σ.m_size = s
  · have hdec : sizeDec s = s - 1 := if_neg (by omega)
    refine ⟨.nothing, some (.overfull key), { σ with m_size := sizeDec s }, R, by simp [act, hcas],
      hs.moves (hs.store.withSize _) rfl rfl, ⟨.stays rfl, fun _ _ => rfl⟩, fun _ => ⟨rfl, ?_⟩⟩
    simp only [balance, owes, hdec, Option.toList_some, List.map_cons, List.map_nil,
      List.singleton_append, Pool.total_cons]
    omega
  · exact ⟨.inserted true, none, σ, R, by simp [act, hcas], hs.returns rfl,
      ⟨.stays rfl, fun _ _ => rfl⟩, fun _ => ⟨rfl, by simp [balance, owes]⟩⟩

theorem steps_find (hs : Stored σ ((i, .find key) :: q) R) : Steps lock σ i (.find key) q R := by
  cases hk : σ.m_map.lookup key with
  | none =>
    exact ⟨.found none, none, σ, R, by simp [act, hk], hs.returns rfl, ⟨.stays rfl, fun _ _ => rfl⟩,
      fun _ => ⟨rfl, by simp [balance, owes]⟩⟩
  | some e =>
    refine ⟨.nothing, some (.found key e), σ, R, by simp [act, hk], hs.goes rfl ?_,
      ⟨.stays rfl, fun _ _ => rfl⟩, fun _ => ⟨rfl, rfl⟩⟩
    rintro k e' ⟨⟩
    exact hk

theorem steps_delete (hs : Stored σ ((i, .delete key) :: q) R) :
    Steps lock σ i (.delete key) q R := by
  cases hk : σ.m_map.lookup key with
  | none =>
    exact ⟨.deleted, none, σ, R, by simp [act, hk], hs.returns rfl, ⟨.stays rfl, fun _ _ => rfl⟩,
      fun _ => ⟨rfl, by simp [balance, owes]⟩⟩
  | some e =>
    refine ⟨.nothing, some (.deleting key e), σ, R, by simp [act, hk], hs.goes rfl ?_,
      ⟨.stays rfl, fun _ _ => rfl⟩, fun _ => ⟨rfl, rfl⟩⟩
    rintro k e' ⟨⟩
    exact hk

/-- The key of a node off the list is not on the list. -/
theorem Store.val_ne {O : List Ptr} (hs : Store σ R O) (hm : m ∈ O)
    (hk : σ.heap.val m = some (some key)) :
    ∀ n ∈ R, σ.heap.val n ≠ some (some key) := by
  intro n hn h
  have := hs.node_eq (List.mem_append_left _ hn) (List.mem_append_right _ hm) (h.trans hk.symm)
  exact (List.nodup_append'.mp hs.nodup).2.2 hn (this ▸ hm)

theorem steps_found (hs : Stored σ ((i, .found key e) :: q) R) :
    Steps lock σ i (.found key e) q R := by
  have hs' := hs.returns rfl
  cases lock with
  | false =>
    exact ⟨.found (some e.m_value), none, σ, R, by simp [act], hs', ⟨.stays rfl, fun _ _ => rfl⟩,
      fun _ => ⟨rfl, by simp [balance, owes]⟩⟩
  | true =>
    have hlk := hs.sees (i, .found key e) (by simp) key e rfl
    obtain ⟨hmem, hval⟩ := hs'.store.mem key e hlk
    rcases List.mem_append.mp hmem with hR | hO
    · obtain ⟨A, B, rfl⟩ := List.append_of_mem hR
      obtain ⟨h', hp, hv, hst⟩ := hs'.store.promote
      exact ⟨.found (some e.m_value), none, { σ with heap := h' }, _, by simp [act, hp],
        ⟨hst, hs'.sees⟩, ⟨.promotes rfl rfl rfl hval, fun n _ => hv n⟩,
        fun _ => ⟨rfl, by simp [balance, owes]; omega⟩⟩
    · have hp := hs'.store.promote_off hO
      exact ⟨.found (some e.m_value), none, σ, R, by simp [act, hp], hs',
        ⟨.misses rfl (hs'.store.val_ne hO hval), fun _ _ => rfl⟩,
        fun _ => ⟨rfl, by simp [balance, owes]⟩⟩

theorem steps_deleting (hs : Stored σ ((i, .deleting key e) :: q) R) :
    Steps lock σ i (.deleting key e) q R := by
  have hlk := hs.sees (i, .deleting key e) (by simp) key e rfl
  obtain ⟨hmem, hval⟩ := hs.store.mem key e hlk
  rcases List.mem_append.mp hmem with hR | hO
  · have hin := hs.store.list.isInList (by simp) hR
    obtain ⟨A, B, rfl⟩ := List.append_of_mem hR
    obtain ⟨h', hd, hv, hst⟩ := hs.store.delink
    exact ⟨.nothing, some (.removed key e), { σ with heap := h' }, A ++ B, by simp [act, hin, hd],
      hs.moves hst rfl rfl, ⟨.takes rfl rfl hval, fun n _ => hv n⟩,
      fun _ => ⟨rfl, by simp [balance, owes]; ring⟩⟩
  · have hout := isInList_unlinked (hs.store.off _ hO).2
    exact ⟨.deleted, none, σ, R, by simp [act, hout], hs.returns rfl,
      ⟨.misses rfl (hs.store.val_ne hO hval), fun _ _ => rfl⟩,
      fun _ => ⟨rfl, by simp [balance, owes]⟩⟩

theorem steps_removed (hs : Stored σ ((i, .removed key e) :: q) R)
    (hfree : ∀ x ∈ q, x.2.holds ≠ some key) : Steps lock σ i (.removed key e) q R := by
  have hval := (hs.store.mem key e (hs.sees (i, .removed key e) (by simp) key e rfl)).2
  refine ⟨.nothing, some .erased,
    { σ with heap := σ.heap.free e.m_listNode, m_map := σ.m_map.erase key }, R, rfl,
    ⟨hs.store.erase hval, fun x hx => ?_⟩, ⟨.stays rfl, hs.val_free (by simp [offNodes])⟩,
    fun _ => ⟨rfl, rfl⟩⟩
  rcases List.mem_cons.mp hx with rfl | hx
  · nofun
  · exact hs.sees_erase hfree x hx

theorem steps_erased (hs : Stored σ ((i, .erased) :: q) R) : Steps lock σ i .erased q R := by
  refine ⟨.deleted, none, { σ with m_size := sizeDec σ.m_size }, R, rfl, ⟨hs.store.withSize _,
    fun x hx => hs.sees x (by simp at hx; simp [hx])⟩, ⟨.stays rfl, fun _ _ => rfl⟩,
    fun h => ⟨rfl, ?_⟩⟩
  have hpos := h.dec rfl
  have hdec : sizeDec σ.m_size = σ.m_size - 1 := if_neg (by omega)
  simp only [balance, owes, Pool.total_cons, Option.toList_none, List.map_nil, List.nil_append,
    hdec]
  omega

/-- Every step of a call keeps the store. -/
theorem Stored.act (hs : Stored σ ((i, c) :: q) R) (hfree : Free ⟨σ, (i, c) :: q⟩ i c)
    (hi : i ∉ q.map Prod.fst) (lock : Bool) : Steps lock σ i c q R := by
  have htail : ∀ x ∈ q, x ∈ (i, c) :: q := fun x hx => List.mem_cons_of_mem _ hx
  cases c with
  | insert key value => exact steps_insert hs
  | mapped key node => exact steps_mapped hs
  | full key node s => exact steps_full hs
  | evicting key node s m => exact steps_evicting hs hfree
  | room key node s done => exact steps_room hs
  | linked key => exact steps_linked hs
  | counted key s => exact steps_counted hs
  | overfull key => exact steps_over hs
  | shedding key m => exact steps_shedding hs hfree
  | find key => exact steps_find hs
  | found key e => exact steps_found hs
  | delete key => exact steps_delete hs
  | deleting key e => exact steps_deleting hs
  | removed key e =>
    exact steps_removed hs fun x hx => hfree x (htail x hx) fun h => hi (h ▸ List.mem_map_of_mem hx)
  | erased => exact steps_erased hs

/-! ### What a step can do -/

/-- Where a step takes a call, and what it makes of the cache. -/
inductive Acts (lock : Bool) (σ : PlainCache K V) :
    CallAt K V → Option (CallAt K V) → PlainCache K V → Prop
  | present {k v e} : σ.m_map.lookup k = some e → Acts lock σ (.insert k v) none
      { σ.newNode k with heap := (σ.newNode k).heap.free (.node σ.fresh) }
  | maps {k v} : σ.m_map.lookup k = none →
      Acts lock σ (.insert k v) (some (.mapped k (.node σ.fresh)))
      { σ.newNode k with m_map := σ.m_map.insert k ⟨v, .node σ.fresh⟩ }
  | full {k n} : σ.m_maxSize ≤ σ.m_size → Acts lock σ (.mapped k n) (some (.full k n σ.m_size)) σ
  | room {k n} : σ.m_size < σ.m_maxSize →
      Acts lock σ (.mapped k n) (some (.room k n σ.m_size false)) σ
  | listEmpty {k n s} : Acts lock σ (.full k n s) (some (.room k n s true)) σ
  | evicts {k n s m h} : Acts lock σ (.full k n s) (some (.evicting k n s m)) { σ with heap := h }
  | evicted {k n s m r} : eraseKey σ m = .ok r →
      Acts lock σ (.evicting k n s m) (some (.room k n s true)) r.2
  | links {k n s done h} :
      Acts lock σ (.room k n s done) (some (if done then .counted k s else .linked k))
        { σ with heap := h }
  | counts {k} : Acts lock σ (.linked k) (some (.counted k σ.m_size))
      { σ with m_size := sizeInc σ.m_size }
  | overfull {k} : σ.m_maxSize < σ.m_size →
      Acts lock σ (.counted k σ.m_size) (some (.overfull k)) { σ with m_size := σ.m_size - 1 }
  | settled {k s} : Acts lock σ (.counted k s) none σ
  | overEmpty {k} : Acts lock σ (.overfull k) none σ
  | sheds {k m h} : Acts lock σ (.overfull k) (some (.shedding k m)) { σ with heap := h }
  | shed {k m r} : eraseKey σ m = .ok r → Acts lock σ (.shedding k m) none r.2
  | miss {k} : Acts lock σ (.find k) none σ
  | hit {k e} : Acts lock σ (.find k) (some (.found k e)) σ
  | found {k e h} : Acts lock σ (.found k e) none { σ with heap := h }
  | absent {k} : Acts lock σ (.delete k) none σ
  | deleting {k e} : Acts lock σ (.delete k) (some (.deleting k e)) σ
  | unlinked {k e} : Acts lock σ (.deleting k e) none σ
  | removes {k e h} : Acts lock σ (.deleting k e) (some (.removed k e)) { σ with heap := h }
  | erases {k e} : Acts lock σ (.removed k e) (some .erased)
      { σ with heap := σ.heap.free e.m_listNode, m_map := σ.m_map.erase k }
  | deleted : Acts lock σ .erased none { σ with m_size := sizeDec σ.m_size }

section
variable {o : Told V} {d : Option (CallAt K V)}

theorem acts_insert (h : act lock σ (.insert key value) = .ok (o, d, σ')) :
    Acts lock σ (.insert key value) d σ' := by
  cases hk : (σ.newNode key).m_map.lookup key <;> simp only [act, hk] at h <;> cases h
  · exact .maps hk
  · exact .present hk

theorem acts_mapped (h : act lock σ (.mapped key node) = .ok (o, d, σ')) :
    Acts lock σ (.mapped key node) d σ' := by
  cases h
  by_cases hfull : σ.m_size ≥ σ.m_maxSize
  · rw [if_pos hfull]
    exact .full hfull
  · rw [if_neg hfull]
    exact .room (by omega)

theorem acts_counted (h : act lock σ (.counted key s) = .ok (o, d, σ')) :
    Acts lock σ (.counted key s) d σ' := by
  simp only [act] at h
  split at h <;> cases h
  · rename_i hcas
    obtain ⟨hs, rfl⟩ := hcas
    have hdec : sizeDec σ.m_size = σ.m_size - 1 := if_neg (by omega)
    rw [hdec]
    exact .overfull hs
  · exact .settled

theorem acts_found (h : act lock σ (.found key e) = .ok (o, d, σ')) :
    Acts lock σ (.found key e) d σ' := by
  cases lock
  · cases h
    exact .found
  · obtain ⟨r, -, h⟩ := bind_eq_ok.mp h
    cases h
    exact .found

theorem acts_deleting (h : act lock σ (.deleting key e) = .ok (o, d, σ')) :
    Acts lock σ (.deleting key e) d σ' := by
  obtain ⟨b, -, h⟩ := bind_eq_ok.mp h
  cases b
  · cases h
    exact .unlinked
  · obtain ⟨r, -, h⟩ := bind_eq_ok.mp h
    cases h
    exact .removes

theorem act_acts (h : act lock σ c = .ok (o, d, σ')) : Acts lock σ c d σ' := by
  cases c with
  | insert key value => exact acts_insert h
  | mapped key node => exact acts_mapped h
  | full key node s =>
    obtain ⟨r, -, h⟩ := bind_eq_ok.mp h
    cases r <;> cases h
    · exact .listEmpty
    · exact .evicts
  | evicting key node s m =>
    obtain ⟨r, hr, h⟩ := bind_eq_ok.mp h
    cases h
    exact .evicted hr
  | room key node s done =>
    obtain ⟨r, -, h⟩ := bind_eq_ok.mp h
    cases h
    exact .links
  | linked key => cases h; exact .counts
  | counted key s => exact acts_counted h
  | overfull key =>
    obtain ⟨r, -, h⟩ := bind_eq_ok.mp h
    cases r <;> cases h
    · exact .overEmpty
    · exact .sheds
  | shedding key m =>
    obtain ⟨r, hr, h⟩ := bind_eq_ok.mp h
    cases h
    exact .shed hr
  | find key =>
    cases hk : σ.m_map.lookup key <;> simp only [act, hk] at h <;> cases h
    · exact .miss
    · exact .hit
  | found key e => exact acts_found h
  | delete key =>
    cases hk : σ.m_map.lookup key <;> simp only [act, hk] at h <;> cases h
    · exact .absent
    · exact .deleting
  | deleting key e => exact acts_deleting h
  | removed key e => cases h; exact .erases
  | erased => cases h; exact .deleted

end

/-- Where a step takes a call, and what it makes of `m_size`. -/
inductive Goes (max S : ℕ) : CallAt K V → Option (CallAt K V) → ℕ → Prop
  | present {k v} : Goes max S (.insert k v) none S
  | maps {k v n} : Goes max S (.insert k v) (some (.mapped k n)) S
  | full {k n} : max ≤ S → Goes max S (.mapped k n) (some (.full k n S)) S
  | room {k n} : S < max → Goes max S (.mapped k n) (some (.room k n S false)) S
  | listEmpty {k n s} : Goes max S (.full k n s) (some (.room k n s true)) S
  | evicts {k n s m} : Goes max S (.full k n s) (some (.evicting k n s m)) S
  | evicted {k n s m} : Goes max S (.evicting k n s m) (some (.room k n s true)) S
  | linked {k n s} : Goes max S (.room k n s false) (some (.linked k)) S
  | relinked {k n s} : Goes max S (.room k n s true) (some (.counted k s)) S
  | counts {k} : Goes max S (.linked k) (some (.counted k S)) (sizeInc S)
  | overfull {k} : max < S → Goes max S (.counted k S) (some (.overfull k)) (S - 1)
  | settled {k s} : Goes max S (.counted k s) none S
  | overEmpty {k} : Goes max S (.overfull k) none S
  | sheds {k m} : Goes max S (.overfull k) (some (.shedding k m)) S
  | shed {k m} : Goes max S (.shedding k m) none S
  | miss {k} : Goes max S (.find k) none S
  | hit {k e} : Goes max S (.find k) (some (.found k e)) S
  | found {k e} : Goes max S (.found k e) none S
  | absent {k} : Goes max S (.delete k) none S
  | deleting {k e} : Goes max S (.delete k) (some (.deleting k e)) S
  | unlinked {k e} : Goes max S (.deleting k e) none S
  | removes {k e} : Goes max S (.deleting k e) (some (.removed k e)) S
  | erases {k e} : Goes max S (.removed k e) (some .erased) S
  | deleted : Goes max S .erased none (sizeDec S)

theorem eraseKey_size {r : Bool × PlainCache K V} (h : eraseKey σ m = .ok r) :
    r.2.m_size = σ.m_size ∧ r.2.m_maxSize = σ.m_maxSize := by
  obtain ⟨k, -, h⟩ := bind_eq_ok.mp h
  cases hk : σ.m_map.lookup k <;> rw [hk] at h <;> cases h <;> exact ⟨rfl, rfl⟩

theorem Acts.goes {d : Option (CallAt K V)} (ha : Acts lock σ c d σ') :
    σ'.m_maxSize = σ.m_maxSize ∧ Goes σ.m_maxSize σ.m_size c d σ'.m_size := by
  cases ha with
  | evicted h =>
    obtain ⟨h1, h2⟩ := eraseKey_size h
    exact ⟨h2, by rw [h1]; exact .evicted⟩
  | shed h =>
    obtain ⟨h1, h2⟩ := eraseKey_size h
    exact ⟨h2, by rw [h1]; exact .shed⟩
  | @links k n s done h => cases done <;> exact ⟨rfl, by constructor⟩
  | full h => exact ⟨rfl, .full h⟩
  | room h => exact ⟨rfl, .room h⟩
  | overfull h => exact ⟨rfl, .overfull h⟩
  | _ => exact ⟨rfl, by constructor⟩

theorem act_goes {o : Told V} {d : Option (CallAt K V)} (h : act lock σ c = .ok (o, d, σ')) :
    σ'.m_maxSize = σ.m_maxSize ∧ Goes σ.m_maxSize σ.m_size c d σ'.m_size := (act_acts h).goes

/-- The rest of `evict` erases the key of the node, or nothing. -/
theorem eraseKey_map {r : Bool × PlainCache K V} (h : eraseKey σ m = .ok r) : r.2.m_map = σ.m_map ∨
    ∃ k, PlainCache.keyOf σ.heap m = .ok k ∧ r.2.m_map = σ.m_map.erase k := by
  obtain ⟨k, hkey, h⟩ := bind_eq_ok.mp h
  cases hk : σ.m_map.lookup k <;> rw [hk] at h <;> cases h
  · exact Or.inl rfl
  · exact Or.inr ⟨k, hkey, rfl⟩

theorem card_eraseKey_le {r : Bool × PlainCache K V} (h : eraseKey σ m = .ok r) :
    r.2.m_map.keys.card ≤ σ.m_map.keys.card := by
  rcases eraseKey_map h with hm | ⟨k, -, hm⟩
  · rw [hm]
  · rw [hm, Finmap.keys_erase]
    exact Finset.card_erase_le

/-- A step needs no addresses beyond those that its call has. -/
theorem Acts.footprint {d : Option (CallAt K V)} (ha : Acts lock σ c d σ') :
    (σ'.m_map.keys.card : ℤ) + d.elim 0 weight ≤ σ.m_map.keys.card + weight c := by
  cases ha with
  | @maps k v hk =>
    have hsub : (σ.m_map.insert k ⟨v, .node σ.fresh⟩).keys ⊆ insert k σ.m_map.keys := fun x hx => by
      simpa [Finmap.mem_keys] using Finmap.mem_insert.mp (Finmap.mem_keys.mp hx)
    have hle := (Finset.card_le_card hsub).trans (Finset.card_insert_le k σ.m_map.keys)
    simp only [Option.elim, weight]
    omega
  | evicted h =>
    have := card_eraseKey_le h
    simp only [Option.elim, weight]
    omega
  | shed h =>
    have := card_eraseKey_le h
    simp only [Option.elim, weight]
    omega
  | @links k n s done h => cases done <;> simp [weight]
  | erases =>
    rw [Finmap.keys_erase]
    simpa [weight] using Finset.card_erase_le
  | _ => simp [weight, PlainCache.newNode]

/-! ### A step of the machine -/

variable {t t' : Threads K V} {o : Told V} {d : Option (CallAt K V)}

omit [DecidableEq K] in
theorem holds_of_writes (h : c.writes = some key) : c.holds = some key := by simp [CallAt.holds, h]

omit [DecidableEq K] in
theorem Released.perm (hp : p.Perm q) (h : Released ⟨σ, p⟩ m) : Released ⟨σ, q⟩ m := by
  unfold Released at h ⊢
  split at h
  · rename_i hk
    simp only at hk
    rw [hk]
    exact fun x hx => h x (hp.mem_iff.mpr hx)
  · rename_i hk
    simp only at hk
    rw [hk]
    trivial

omit [DecidableEq K] in
theorem Free.perm (hp : p.Perm q) (h : Free ⟨σ, p⟩ i c) : Free ⟨σ, q⟩ i c := by
  cases c with
  | insert key value => exact fun x hx => h x (hp.mem_iff.mpr hx)
  | find key => exact fun x hx => h x (hp.mem_iff.mpr hx)
  | delete key => exact fun x hx => h x (hp.mem_iff.mpr hx)
  | evicting key node s m => exact Released.perm hp h
  | shedding key m => exact Released.perm hp h
  | removed key e => exact fun x hx => h x (hp.mem_iff.mpr hx)
  | _ => trivial

/-- A step of call `i` that is at `c`, next to the calls `q`. -/
abbrev Went (lock : Bool) (t : Threads K V) (i : ℕ) (c : CallAt K V) (o : Told V)
    (d : Option (CallAt K V)) (t' : Threads K V) (q : Pool (CallAt K V)) : Prop :=
  Busy.Went (act lock) t i c o d t' q

theorem went_of_step (hd : t.calls.Distinct) (hc : t.calls.get i = some c)
    (h : t.step (.go i lock) = .ok (o, t')) : ∃ d q, Went lock t i c o d t' q := by
  obtain ⟨c', d, q, hw⟩ := Busy.went hd h
  cases hc.symm.trans hw.at_
  exact ⟨d, q, hw⟩

omit [DecidableEq K] in
theorem footprint_init (maxSize : ℕ) : (init maxSize : Threads K V).footprint ≤ 2 ^ 64 := by
  simp [Threads.footprint, init, PlainCache.init]

/-- A step takes up no more addresses. -/
theorem footprint_went (hw : Went lock t i c o d t' q) :
    t'.footprint ≤ t.footprint := by
  have hle := (act_acts hw.act).footprint
  unfold Threads.footprint
  rw [Pool.total_perm _ hw.before, Pool.total_perm _ hw.after]
  cases d <;> simp at hle ⊢ <;> omega

omit [DecidableEq K] in
/-- A call that comes in takes at most two addresses. -/
theorem footprint_add (hc : weight c ≤ 2) :
    Threads.footprint ⟨t.shared, t.calls.add i c⟩ ≤ t.footprint + 2 := by
  simp only [Threads.footprint, Pool.add, Pool.total_cons]
  omega

omit [DecidableEq K] in
/-- A call takes at most one node off the list that is still counted. -/
theorem neg_length_le_owes (q : Pool (CallAt K V)) : -(q.length : ℤ) ≤ Pool.total owes q := by
  refine le_trans (by rw [Pool.total_const]; simp)
    (Pool.total_le_total (f := fun _ => -1) (fun c => ?_) q)
  cases c <;> simp [owes]
  split <;> simp

/-- While the addresses last, `m_size` can count one more node. -/
theorem Sane.inc (hs : Sane t.shared t.calls R) (hd : t.calls.Distinct)
    (hc : t.calls.get i = some (.linked key)) (hfit : t.footprint ≤ 2 ^ 64) :
    t.shared.m_size + 1 < 2 ^ 64 := by
  obtain ⟨A, B, hp, -⟩ := Pool.split hd hc
  obtain ⟨q, hperm⟩ : ∃ q, t.calls.Perm ((i, .linked key) :: q) := ⟨A ++ B, hp ▸ List.perm_middle⟩
  have hsize := (hs.perm hperm).size
  have hcard := hs.store.length_le_card
  have hless := neg_length_le_owes q
  have hweight : (q.length : ℤ) ≤ Pool.total weight q := by
    refine le_trans (by rw [Pool.total_const]; simp)
      (Pool.total_le_total (f := fun _ => 1) (fun c => ?_) q)
    cases c <;> simp [weight]
  unfold Threads.footprint at hfit
  rw [Pool.total_perm _ hperm] at hfit
  simp only [Pool.total_cons, owes, weight, List.length_append] at hsize hfit hcard
  omega

/-- The step of a call in flight returns if the one of the call alone does. -/
theorem go_of_act (hc : t.calls.get i = some c) {σ' : PlainCache K V}
    (h : act lock t.shared c = .ok (o, d, σ')) :
    ∃ t', t.step (.go i lock) = .ok (o, t') :=
  ⟨⟨σ', t.calls.after i d⟩, by simp only [step, Busy.go, hc, h, ok_bind, pure_eq_ok]⟩

/-- The step of a call in flight returns and keeps the store; with what it needs it keeps the books
    and says nothing. -/
theorem Stored.go (hs : Stored t.shared t.calls R) (hd : t.calls.Distinct)
    (hc : t.calls.get i = some c) (hfree : t.Free i c) (lock : Bool) :
    ∃ o t' d q R', t.step (.go i lock) = .ok (o, t') ∧
      Went lock t i c o d t' q ∧ Stored t'.shared t'.calls R' ∧
      (Turns lock t.shared c R R' ∧
        ∀ n ∈ R, t'.shared.heap.val n = t.shared.heap.val n) ∧
      (Supplied t.shared c R → Sane t.shared t.calls R → o.quiet = true ∧
        Sane t'.shared t'.calls R') := by
  obtain ⟨A, B, hp, hi, -, -⟩ := Pool.split hd hc
  have hperm : t.calls.Perm ((i, c) :: (A ++ B)) := by rw [hp]; exact List.perm_middle
  obtain ⟨o, d, σ', R', ha, -, -⟩ := (hs.perm hperm).act (hfree.perm hperm) hi lock
  obtain ⟨t', hstep⟩ := go_of_act hc ha
  obtain ⟨d', q, hw⟩ := went_of_step hd hc hstep
  obtain ⟨o', d'', σ'', R'', ha', hs', hturn, hbal⟩ :=
    (hs.perm hw.before).act (hfree.perm hw.before) hw.others lock
  have heq := ha'.symm.trans hw.act
  simp only [Except.ok.injEq, Prod.mk.injEq] at heq
  obtain ⟨rfl, rfl, rfl⟩ := heq
  have hs'' := hs'.perm hw.after.symm
  refine ⟨o', t', d'', q, R'', hstep, hw, hs'', hturn, fun hsup hsane => ?_⟩
  obtain ⟨hq, hbal⟩ := hbal hsup
  refine ⟨hq, hs'', ?_⟩
  have hsize := (hsane.perm hw.before).size
  rw [Pool.total_perm _ hw.after]
  simp only [balance] at hbal
  omega

end FrozenHot.Threads
