import FrozenHot.Cache.Bounded

/-! The size counter of the plain caches with deletions in flight.

    An `insert` keeps the accessor of its key, so its node stays in the map: it is on the list, or a
    victim whose eviction waits. Hence the list and the pending evictions outnumber the insertions
    that are linked and not counted, and `m_size` is at least the number of pending decrements. This
    rests on every eviction having found a node; one that has not is taken for one that has, and its
    entry is never counted. -/

namespace FrozenHot.Threads
open Schemes

variable {K V : Type} [DecidableEq K] {σ σ' : PlainCache K V} {R : List Ptr} {i : ℕ} {lock : Bool}
variable {c : CallAt K V} {d : Option (CallAt K V)} {p q : Pool (CallAt K V)} {o : Told V} {k : K}
variable {t t' : Threads K V}

/-! ### The accessors -/

/-- The accessors that two calls hold are compatible. -/
def Compatible (a b : CallAt K V) : Prop :=
  ∀ k, (a.writes = some k → b.holds ≠ some k) ∧ (b.writes = some k → a.holds ≠ some k)

/-- Accessors are exclusive, and the keys of the insertions in flight are in the map. -/
structure Locks (σ : PlainCache K V) (p : Pool (CallAt K V)) : Prop where
  exclusive : p.Pairwise fun x y => Compatible x.2 y.2
  own : ∀ x ∈ p, ∀ k, x.2.writes = some k → ∃ e, σ.m_map.lookup k = some e
  node : ∀ x ∈ p, ∀ k n, newNode x.2 = some (k, n) → ∃ v, σ.m_map.lookup k = some ⟨v, n⟩

omit [DecidableEq K] in
theorem Compatible.symm {a b : CallAt K V} (h : Compatible a b) : Compatible b a :=
  fun k => (h k).symm

theorem Locks.perm (hl : Locks σ p) (hp : p.Perm q) : Locks σ q :=
  ⟨(hp.pairwise_iff fun h => Compatible.symm h).mp hl.exclusive,
    fun x hx => hl.own x (hp.mem_iff.mpr hx), fun x hx => hl.node x (hp.mem_iff.mpr hx)⟩

omit [DecidableEq K] in
theorem writes_of_newNode {n : Ptr} (h : newNode c = some (k, n)) : c.writes = some k := by
  cases c <;> simp_all [newNode, CallAt.writes]

/-- A call goes to a place where it holds no more than it did. -/
structure Keeps (c y : CallAt K V) : Prop where
  writes : ∀ k, y.writes = some k → c.writes = some k
  holds : ∀ k, y.holds = some k → c.holds = some k
  node : ∀ z, newNode y = some z → newNode c = some z

omit [DecidableEq K] in
/-- The accessor stays, and the node of an insertion may have been linked. -/
theorem Keeps.of_eq {y : CallAt K V} (hw : y.writes = c.writes) (hh : y.holds = c.holds)
    (hn : newNode y = newNode c ∨ newNode y = none) : Keeps c y := by
  refine ⟨fun k h => hw ▸ h, fun k h => hh ▸ h, fun z h => ?_⟩
  rcases hn with hn | hn
  · exact hn ▸ h
  · rw [hn] at h; cases h

/-- What a step does to the map and to the accessors of the call; `q` are the other calls. -/
inductive Accesses (q : Pool (CallAt K V)) (m m' : Finmap fun _ : K => HashMapValue V)
    (c : CallAt K V) :
    Option (CallAt K V) → Prop
  | stays {d : Option (CallAt K V)} : m' = m → (∀ y ∈ d, Keeps c y) → Accesses q m m' c d
  | shares {k : K} {y : CallAt K V} : m' = m → y.writes = none → y.holds = some k →
      newNode y = none →
      (∀ x ∈ q, x.2.writes ≠ some k) → Accesses q m m' c (some y)
  | inserts {k : K} {v : V} {n : Ptr} : m.lookup k = none → m' = m.insert k ⟨v, n⟩ →
      (∀ x ∈ q, x.2.holds ≠ some k) →
      Accesses q m m' c (some (.mapped k n))
  | erases {k : K} {d : Option (CallAt K V)} : m' = m.erase k → (∀ x ∈ q, x.2.holds ≠ some k) →
      (∀ y ∈ d, Keeps c y ∧ y.holds ≠ some k) →
      Accesses q m m' c d

section
variable {m m' : Finmap fun _ : K => HashMapValue V} {y : CallAt K V}

/-- The call ends. -/
theorem Accesses.ends (hm : m' = m) : Accesses q m m' c none := .stays hm (by simp)

/-- The call goes on with what it has. -/
theorem Accesses.goes_on (hm : m' = m) (hk : Keeps c y) : Accesses q m m' c (some y) :=
  .stays hm (by simpa using hk)

end

/-- The rest of `evict` waits until nobody has the accessor of the key that it erases. -/
theorem accesses_eraseKey {m : Ptr} {r : Bool × PlainCache K V} (h : eraseKey σ m = .ok r)
    (hfree : Released ⟨σ, (i, c) :: q⟩ m) (hd : ∀ y ∈ d, Keeps c y) :
    Accesses q σ.m_map r.2.m_map c d := by
  rcases eraseKey_map h with hm | ⟨k, hk, hm⟩
  · exact .stays hm hd
  · refine .erases hm (hfree.others hk) fun y hy => ⟨hd y hy, fun hh => ?_⟩
    simp only [Released, hk] at hfree
    exact hfree (i, c) (by simp) ((hd y hy).holds k hh)

theorem Acts.accesses (ha : Acts lock σ c d σ') (hfree : Free ⟨σ, (i, c) :: q⟩ i c)
    (hi : i ∉ q.map Prod.fst) : Accesses q σ.m_map σ'.m_map c d := by
  have htail : ∀ x ∈ q, x ∈ (i, c) :: q := fun x hx => List.mem_cons_of_mem _ hx
  cases ha with
  | maps hk => exact .inserts hk rfl fun x hx => hfree x (htail x hx)
  | evicted h =>
    refine accesses_eraseKey h hfree ?_
    rintro y ⟨⟩
    exact .of_eq rfl rfl (.inl rfl)
  | shed h => exact accesses_eraseKey h hfree nofun
  | @links k n s done h => cases done <;> exact .goes_on rfl (.of_eq rfl rfl (.inr rfl))
  | hit => exact .shares rfl rfl rfl rfl fun x hx => hfree x (htail x hx)
  | deleting => exact .shares rfl rfl rfl rfl fun x hx => hfree x (htail x hx)
  | erases =>
    refine .erases rfl (fun x hx => hfree x (htail x hx) fun h => hi (h ▸ List.mem_map_of_mem hx))
      ?_
    rintro y ⟨⟩
    exact ⟨⟨nofun, nofun, nofun⟩, nofun⟩
  | present => exact .ends rfl
  | settled => exact .ends rfl
  | overEmpty => exact .ends rfl
  | miss => exact .ends rfl
  | found => exact .ends rfl
  | absent => exact .ends rfl
  | unlinked => exact .ends rfl
  | deleted => exact .ends rfl
  | _ => exact .goes_on rfl (.of_eq rfl rfl (.inl rfl))

/-- The calls whose keys a step leaves alone. -/
theorem Locks.congr (hl : Locks σ q)
    (h : ∀ x ∈ q, ∀ k, x.2.writes = some k → σ'.m_map.lookup k = σ.m_map.lookup k) :
    Locks σ' q := by
  refine ⟨hl.exclusive, fun x hx k hk => ?_, fun x hx k n hn => ?_⟩
  · rw [h x hx k hk]; exact hl.own x hx k hk
  · rw [h x hx k (writes_of_newNode hn)]; exact hl.node x hx k n hn

/-- One more call. -/
theorem Locks.cons (hl : Locks σ q) (hc : ∀ x ∈ q, Compatible c x.2)
    (ho : ∀ k, c.writes = some k → ∃ e, σ.m_map.lookup k = some e)
    (hn : ∀ k n, newNode c = some (k, n) → ∃ v, σ.m_map.lookup k = some ⟨v, n⟩) :
    Locks σ ((i, c) :: q) := by
  refine ⟨List.pairwise_cons.mpr ⟨hc, hl.exclusive⟩, fun x hx => ?_, fun x hx => ?_⟩
  · rcases List.mem_cons.mp hx with rfl | hx
    · exact ho
    · exact hl.own x hx
  · rcases List.mem_cons.mp hx with rfl | hx
    · exact hn
    · exact hl.node x hx

theorem Locks.tail (hl : Locks σ ((i, c) :: q)) : Locks σ q ∧ ∀ x ∈ q, Compatible c x.2 :=
  ⟨⟨(List.pairwise_cons.mp hl.exclusive).2, fun x hx => hl.own x (by simp [hx]),
    fun x hx => hl.node x (by simp [hx])⟩, (List.pairwise_cons.mp hl.exclusive).1⟩

omit [DecidableEq K] in
theorem Keeps.compatible {y b : CallAt K V} (hk : Keeps c y) (h : Compatible c b) :
    Compatible y b := fun k =>
  ⟨fun hw => (h k).1 (hk.writes k hw), fun hw hh => (h k).2 hw (hk.holds k hh)⟩

/-- A step keeps the accessors in order. -/
theorem Locks.accesses (hl : Locks σ ((i, c) :: q)) (ha : Accesses q σ.m_map σ'.m_map c d) :
    Locks σ' (d.toList.map (i, ·) ++ q) := by
  obtain ⟨hq, hcompat⟩ := hl.tail
  have hown := hl.own (i, c) (by simp)
  have hnode := hl.node (i, c) (by simp)
  cases ha with
  | stays hm hd =>
    have hq' : Locks σ' q := hq.congr fun _ _ _ _ => by rw [hm]
    cases d with
    | none => exact hq'
    | some y =>
      have hk := hd y rfl
      exact hq'.cons (fun x hx => hk.compatible (hcompat x hx))
        (fun k hw => by rw [hm]; exact hown k (hk.writes k hw))
        (fun k n hn => by rw [hm]; exact hnode k n (hk.node _ hn))
  | shares hm hw hh hn hfree =>
    have hq' : Locks σ' q := hq.congr fun _ _ _ _ => by rw [hm]
    refine hq'.cons (fun x hx k => ⟨fun h => ?_, fun h h' => ?_⟩) (fun k h => ?_) (fun k n h => ?_)
    · rw [hw] at h; cases h
    · rw [hh] at h'; cases h'; exact hfree x hx h
    · rw [hw] at h; cases h
    · rw [hn] at h; cases h
  | inserts hnone hm hfree =>
    have hq' : Locks σ' q := hq.congr fun x hx k hk => by
      rw [hm]
      refine Finmap.lookup_insert_of_ne _ ?_
      rintro rfl
      exact hfree x hx (holds_of_writes hk)
    refine hq'.cons (fun x hx k => ⟨fun h => ?_, fun h h' => ?_⟩) (fun k h => ?_) (fun k n h => ?_)
    · cases h; exact hfree x hx
    · cases h'; exact hfree x hx (holds_of_writes h)
    · cases h; exact ⟨_, by rw [hm]; exact Finmap.lookup_insert _⟩
    · cases h; exact ⟨_, by rw [hm]; exact Finmap.lookup_insert _⟩
  | erases hm hfree hd =>
    have hq' : Locks σ' q := hq.congr fun x hx k hk => by
      rw [hm]
      refine Finmap.lookup_erase_ne ?_
      rintro rfl
      exact hfree x hx (holds_of_writes hk)
    cases d with
    | none => exact hq'
    | some y =>
      obtain ⟨hk, hne⟩ := hd y rfl
      have hlk : ∀ k, y.writes = some k → σ'.m_map.lookup k = σ.m_map.lookup k := fun k hw => by
        rw [hm]
        refine Finmap.lookup_erase_ne ?_
        rintro rfl
        exact hne (holds_of_writes hw)
      exact hq'.cons (fun x hx => hk.compatible (hcompat x hx))
        (fun k hw => by rw [hlk k hw]; exact hown k (hk.writes k hw))
        (fun k n hn => by rw [hlk k (writes_of_newNode hn)]; exact hnode k n (hk.node _ hn))

/-- A call that comes in holds nothing. -/
theorem Locks.add (hl : Locks σ p) (hh : c.holds = none) (hn : newNode c = none) :
    c.sees = none ∧ Locks σ ((i, c) :: p) := by
  have hw : c.writes = none := by
    cases h : c.writes with
    | none => rfl
    | some k => rw [holds_of_writes h] at hh; cases hh
  exact ⟨by simpa [CallAt.holds, hw] using hh,
    hl.cons (fun x hx k => by simp [hw, hh]) (by simp [hw]) (by simp [hn])⟩

theorem Locks.went (hl : Locks t.shared t.calls) (hw : Went lock t i c o d t' q)
    (hfree : t.Free i c) :
    Locks t'.shared t'.calls :=
  have ha := (act_acts hw.act).accesses (hfree.perm hw.before) hw.others
  ((hl.perm hw.before).accesses ha).perm hw.after.symm

/-! ### The insertions that are linked -/

/-- The key of an insertion that has linked its node. -/
def pushed : CallAt K V → Option K
  | .linked key | .counted key _ | .overfull key | .shedding key _ => some key
  | _ => none

/-- The victim of a pending eviction. -/
def victim : CallAt K V → Option Ptr
  | .evicting _ _ _ moribund | .shedding _ moribund => some moribund
  | _ => none

omit [DecidableEq K] in
theorem writes_of_pushed (h : pushed c = some k) : c.writes = some k := by
  cases c <;> simp_all [pushed, CallAt.writes]

/-- The nodes of the linked insertions in flight. -/
def pushedNodes (σ : PlainCache K V) (p : Pool (CallAt K V)) : List Ptr :=
  p.filterMap fun x => (pushed x.2).bind fun k => (σ.m_map.lookup k).map HashMapValue.m_listNode

theorem mem_pushedNodes {x : ℕ × CallAt K V} {n : Ptr}
    (h : ((pushed x.2).bind fun k => (σ.m_map.lookup k).map HashMapValue.m_listNode) = some n) :
    ∃ k e, pushed x.2 = some k ∧ σ.m_map.lookup k = some e ∧ e.m_listNode = n := by
  obtain ⟨k, hk, h⟩ := Option.bind_eq_some_iff.mp h
  obtain ⟨e, he, h⟩ := Option.map_eq_some_iff.mp h
  exact ⟨k, e, hk, he, h⟩

theorem nodup_pushedNodes (hl : Locks σ p) (hs : Sane σ p R) : (pushedNodes σ p).Nodup := by
  rw [pushedNodes, List.Nodup, List.pairwise_filterMap]
  refine hl.exclusive.imp fun {x y} hxy n hn n' hn' => ?_
  obtain ⟨k, e, hk, he, rfl⟩ := mem_pushedNodes hn
  obtain ⟨k', e', hk', he', rfl⟩ := mem_pushedNodes hn'
  intro heq
  have hval := (hs.store.mem k e he).2
  rw [heq, (hs.store.mem k' e' he').2] at hval
  cases hval
  exact (hxy k).1 (writes_of_pushed hk) (holds_of_writes (writes_of_pushed hk'))

/-- The node of a linked insertion is on the list, or the victim of a pending eviction. -/
theorem pushedNodes_subset (hl : Locks σ p) (hs : Sane σ p R) :
    pushedNodes σ p ⊆ R ++ p.filterMap (victim ·.2) := by
  intro n hn
  obtain ⟨x, hx, hn⟩ := List.mem_filterMap.mp hn
  obtain ⟨k, e, hk, he, rfl⟩ := mem_pushedNodes hn
  obtain ⟨hmem, hval⟩ := hs.store.mem k e he
  refine List.mem_append.mpr ((List.mem_append.mp hmem).imp id fun hoff => ?_)
  obtain ⟨y, hy, hoff⟩ := List.mem_flatMap.mp hoff
  -- whoever has the node off the list does not hold the accessor of its key
  have hother : ∀ k', y.2.holds = some k' → pushed y.2 = none → k' ≠ k := by
    rintro k' hh hp rfl
    have hne : x ≠ y := by rintro rfl; rw [hp] at hk; cases hk
    have : Std.Symm fun x y : ℕ × CallAt K V => Compatible x.2 y.2 := ⟨fun _ _ h => h.symm⟩
    exact (hl.exclusive.forall hx hy hne k').1 (writes_of_pushed hk) hh
  have hnew : ∀ k' n, newNode y.2 = some (k', n) → e.m_listNode ≠ n := by
    rintro k' n hn rfl
    obtain ⟨v, hv⟩ := hl.node y hy k' _ hn
    have hval' := (hs.store.mem k' _ hv).2
    rw [hval] at hval'
    cases hval'
    refine hother k (holds_of_writes (writes_of_newNode hn)) ?_ rfl
    cases h : y.2 <;> simp_all [newNode, pushed]
  refine List.mem_filterMap.mpr ⟨y, hy, ?_⟩
  have hsees := hs.sees y hy
  generalize y.2 = c at *
  cases c with
  | mapped k' n => exact absurd (by simpa [offNodes] using hoff) (hnew k' n rfl)
  | full k' n s => exact absurd (by simpa [offNodes] using hoff) (hnew k' n rfl)
  | room k' n s b => exact absurd (by simpa [offNodes] using hoff) (hnew k' n rfl)
  | evicting k' n s m =>
    rcases List.mem_cons.mp hoff with h | h
    · rw [victim, h]
    · exact absurd (by simpa using h) (hnew k' n rfl)
  | shedding k' m => rw [victim, List.mem_singleton.mp hoff]
  | removed k' e' =>
    have h := List.mem_singleton.mp hoff
    have hval' := (hs.store.mem k' e' (hsees k' e' rfl)).2
    rw [← h, hval] at hval'
    cases hval'
    exact absurd rfl (hother k rfl rfl)
  | _ => cases hoff

/-- Whether there is something. -/
def indicator {A : Type} (o : Option A) : ℤ := if o.isSome then 1 else 0

omit [DecidableEq K] in
theorem length_filterMap {A : Type} (f : CallAt K V → Option A) (p : Pool (CallAt K V)) :
    ((p.filterMap (f ·.2)).length : ℤ) = Pool.total (fun c => indicator (f c)) p := by
  induction p with
  | nil => rfl
  | cons x p ih =>
    rw [Pool.total_cons, ← ih, List.filterMap_cons]
    cases f x.2 <;> simp [indicator]; omega

/-- Every linked insertion in flight has its node in the map. -/
theorem length_pushedNodes (hl : Locks σ p) :
    ((pushedNodes σ p).length : ℤ) = Pool.total (fun c => indicator (pushed c)) p := by
  rw [← length_filterMap, pushedNodes]
  have hown := hl.own
  clear hl
  induction p with
  | nil => rfl
  | cons x p ih =>
    have hlen := ih fun y hy => hown y (by simp [hy])
    rw [List.filterMap_cons, List.filterMap_cons]
    cases hk : pushed x.2 with
    | none => simpa using hlen
    | some k =>
      obtain ⟨e, he⟩ := hown x (by simp) k (writes_of_pushed hk)
      simpa [he] using hlen

/-- Whether a call is about to decrement `m_size`. -/
def decrements : CallAt K V → ℤ
  | .erased => 1
  | _ => 0

/-- `m_size` is at least the number of pending decrements. -/
theorem decrements_le (hl : Locks σ p) (hs : Sane σ p R) : Pool.total decrements p ≤ σ.m_size := by
  have hlen :=
    (List.subperm_of_subset (nodup_pushedNodes hl hs) (pushedNodes_subset hl hs)).length_le
  rw [List.length_append] at hlen
  have hpushed := length_pushedNodes hl
  have hvictims := length_filterMap (victim (K := K) (V := V)) p
  have hsize := hs.size
  -- place by place: a pending decrement is owed, and whoever owes the list a node has linked one
  have hplace : ∀ c : CallAt K V, decrements c + indicator (victim c) + owes c ≤
      indicator (pushed c) := by
    intro c
    cases c with
    | room k n s b => cases b <;> simp [decrements, pushed, victim, owes, indicator]
    | _ => simp [decrements, pushed, victim, owes, indicator]
  have htotal := Pool.total_le_total hplace p
  rw [Pool.total_add, Pool.total_add] at htotal
  omega

/-! ### Whole runs -/

/-- The steps in which an eviction takes the list lock while there is a node on the list. -/
def Fed (s : Threads K V) (e : ThreadStep K V) : Prop :=
  s.Enabled e ∧ match e with
    | .go i _ => ∀ c ∈ s.calls.get i, evicts c = true → s.shared.heap.prev .m_tail ≠ some .m_head
    | _ => True

instance (s : Threads K V) : DecidablePred s.Fed
  | .insert _ _ _ | .find _ _ | .delete _ _ | .go _ _ => by unfold Fed; infer_instance

/-- The invariant of the runs with deletions. -/
structure Kept (t : Threads K V) : Prop where
  distinct : t.calls.Distinct
  sane : ∃ R, Sane t.shared t.calls R
  locks : Locks t.shared t.calls
  fits : t.footprint ≤ 2 ^ 64

theorem kept_init (maxSize : ℕ) : Kept (init maxSize : Threads K V) :=
  ⟨List.nodup_nil, ⟨[], sane_init maxSize⟩, ⟨List.Pairwise.nil, nofun, nofun⟩,
    footprint_init maxSize⟩

/-- A place at which a call comes in. -/
structure Fresh (c : CallAt K V) : Prop where
  holds : c.holds = none
  off : offNodes c = []
  node : newNode c = none
  owes : owes c = 0
  weight : weight c ≤ 2

omit [DecidableEq K] in
theorem fresh_insert (key : K) (value : V) : Fresh (.insert key value) :=
  ⟨rfl, rfl, rfl, rfl, le_rfl⟩

omit [DecidableEq K] in
theorem fresh_find (key : K) : Fresh (.find key : CallAt K V) := ⟨rfl, rfl, rfl, rfl, one_le_two⟩

omit [DecidableEq K] in
theorem fresh_delete (key : K) :
    Fresh (.delete key : CallAt K V) := ⟨rfl, rfl, rfl, rfl, one_le_two⟩

/-- A call comes in. -/
theorem Kept.add (hk : Kept t) (hi : i ∉ t.calls.map Prod.fst ∧ t.footprint + 2 ≤ 2 ^ 64)
    (hc : Fresh c) :
    Kept { t with calls := t.calls.add i c } := by
  obtain ⟨R, hs⟩ := hk.sane
  obtain ⟨hsees, hl⟩ := hk.locks.add hc.holds hc.node
  exact ⟨List.nodup_cons.mpr ⟨hi.1, hk.distinct⟩, ⟨R, hs.add hc.off hsees hc.owes⟩, hl,
    (footprint_add hc.weight).trans hi.2⟩

/-- A pending decrement finds a positive size. -/
theorem Kept.pos (hk : Kept t) (hc : t.calls.get i = some .erased) : 0 < t.shared.m_size := by
  obtain ⟨R, hs⟩ := hk.sane
  have hle := decrements_le hk.locks hs
  obtain ⟨A, B, hp, -⟩ := Pool.split hk.distinct hc
  have hrest : 0 ≤ Pool.total decrements (A ++ B) := by
    refine le_trans (by rw [Pool.total_const]; simp)
      (Pool.total_le_total (f := fun _ => 0) (fun c => ?_) _)
    cases c <;> simp [decrements]
  rw [hp, Pool.total_middle, decrements] at hle
  omega

/-- A call in flight does its next step. -/
theorem Kept.go (hk : Kept t) (hf : t.Fed (.go i lock)) :
    ∃ o t', t.step (.go i lock) = .ok (o, t') ∧ o.quiet = true ∧ Kept t' := by
  obtain ⟨⟨c, hc, hfree⟩, hfed⟩ := hf
  obtain ⟨R, hs⟩ := hk.sane
  obtain ⟨o, t', d, q, R', hstep, hw, -, -, hbooks⟩ := hs.toStored.go hk.distinct hc hfree lock
  have hsup : Supplied t.shared c R :=
    ⟨fun he h => hfed c hc he (hs.store.prev_tail.mpr h),
      fun k hk' => hs.inc hk.distinct (hk' ▸ hc) hk.fits, by rintro rfl; exact hk.pos hc⟩
  obtain ⟨hq, hs'⟩ := hbooks hsup hs
  exact ⟨o, t', hstep, hq, hw.distinct, ⟨R', hs'⟩, hk.locks.went hw hfree,
    (footprint_went hw).trans hk.fits⟩

/-- Every step keeps the invariant. -/
theorem Kept.step {e : ThreadStep K V} (hk : Kept t) (hf : t.Fed e) (h : t.step e = .ok (o, t')) :
    Kept t' ∧ o.quiet = true := by
  cases e with
  | insert i key value => cases h; exact ⟨hk.add hf.1 (fresh_insert key value), rfl⟩
  | find i key => cases h; exact ⟨hk.add hf.1 (fresh_find key), rfl⟩
  | delete i key => cases h; exact ⟨hk.add hf.1 (fresh_delete key), rfl⟩
  | go i lock =>
    obtain ⟨o', t₁, h1, hq, hk'⟩ := hk.go hf
    rw [h1] at h
    cases h
    exact ⟨hk', hq⟩

omit [DecidableEq K] in
theorem Goes.size_le {max S S' : ℕ} (hg : Goes max S c d S') (hpos : c = .erased → 0 < S) :
    S' ≤ S + 1 := by
  cases hg with
  | counts => exact Nat.mod_le _ _
  | deleted =>
    have := hpos rfl
    have hdec : sizeDec S = S - 1 := if_neg (by omega)
    omega
  | _ => omega

/-- No step makes `m_size` jump. -/
theorem Kept.size_le {e : ThreadStep K V} (hk : Kept t) (hf : t.Fed e)
    (h : t.step e = .ok (o, t')) :
    t'.shared.m_size ≤ t.shared.m_size + 1 := by
  cases e with
  | insert i key value => cases h; exact Nat.le_succ _
  | find i key => cases h; exact Nat.le_succ _
  | delete i key => cases h; exact Nat.le_succ _
  | go i lock =>
    obtain ⟨⟨c, hc, -⟩, -⟩ := hf
    obtain ⟨d, q, hw⟩ := went_of_step hk.distinct hc h
    exact (act_goes hw.act).2.size_le (by rintro rfl; exact hk.pos hc)

/-- With calls of `insert`, `find` and `delete_key` in flight in any interleaving in which an
    eviction finds a node: no decrement of `m_size` finds it at zero and no increment at its last
    value, no step goes wrong, and with no call in flight `m_size`, the list and the map agree. -/
theorem size_never_wraps {maxSize : ℕ} {H : List (ThreadStep K V × Told V)}
    (hrun : Run Threads.step Fed (init maxSize) H t) :
    (∀ i, t.calls.get i = some .erased → 0 < t.shared.m_size) ∧
    (∀ i k, t.calls.get i = some (.linked k) → t.shared.m_size + 1 < 2 ^ 64) ∧
    (∀ e o t', t.Fed e → t.step e = .ok (o, t') → t'.shared.m_size ≤ t.shared.m_size + 1) ∧
    (∀ e, t.Fed e → ∃ r, t.step e = .ok r) ∧
    (t.calls = [] → ∃ ks, t.shared.snapshotKeys = .ok ks ∧ ks.Nodup ∧ t.shared.m_size = ks.length ∧
      t.shared.m_map.keys.card = ks.length ∧ ∀ k, k ∈ t.shared.m_map ↔ k ∈ ks) := by
  have hk : Kept t := hrun.invariant Kept (kept_init maxSize) fun s e o s' hk hf _ h =>
    (hk.step hf h).1
  refine ⟨fun i => hk.pos, fun i k hc => ?_, fun e o t' hf h => hk.size_le hf h, fun e hf => ?_,
    fun hc => ?_⟩
  · obtain ⟨R, hs⟩ := hk.sane
    exact hs.inc hk.distinct hc hk.fits
  · cases e with
    | insert i key value => exact ⟨_, rfl⟩
    | find i key => exact ⟨_, rfl⟩
    | delete i key => exact ⟨_, rfl⟩
    | go i lock =>
      obtain ⟨o, t', h, -⟩ := hk.go hf
      exact ⟨_, h⟩
  · obtain ⟨R, hs⟩ := hk.sane
    exact hs.quiet hc

/-- An insertion and a deletion side by side. -/
theorem size_never_wraps_two : ∃ t : Threads ℕ ℕ, Run Threads.step Fed (init 1)
    [(.insert 0 3 7, .nothing), (.go 0 true, .nothing), (.go 0 true, .nothing),
      (.go 0 true, .nothing), (.delete 1 3, .nothing), (.go 0 true, .nothing),
      (.go 0 true, .inserted true), (.go 1 true, .nothing), (.insert 2 4 8, .nothing),
      (.go 2 true, .nothing), (.go 1 true, .nothing), (.go 1 true, .nothing)] t ∧
    t.calls.get 1 = some .erased ∧ 0 < t.shared.m_size := by
  have hrun : ∃ t : Threads ℕ ℕ, t.calls.get 1 = some .erased ∧ Run Threads.step Fed (init 1)
      [(.insert 0 3 7, .nothing), (.go 0 true, .nothing), (.go 0 true, .nothing),
        (.go 0 true, .nothing), (.delete 1 3, .nothing), (.go 0 true, .nothing),
        (.go 0 true, .inserted true), (.go 1 true, .nothing), (.insert 2 4 8, .nothing),
        (.go 2 true, .nothing), (.go 1 true, .nothing), (.go 1 true, .nothing)] t :=
    ⟨_, rfl, .cons (by decide) rfl
      (.cons (by decide) rfl (.cons (by decide) rfl (.cons (by decide) rfl
      (.cons (by decide) rfl (.cons (by decide) rfl (.cons (by decide) rfl (.cons (by decide) rfl
      (.cons (by decide) rfl (.cons (by decide) rfl
        (.cons (by decide) rfl (.cons (by decide) rfl .nil)))))))))))⟩
  obtain ⟨t, hc, hrun⟩ := hrun
  exact ⟨t, hrun, hc, (size_never_wraps hrun).1 1 hc⟩

/-- `insert` of 4 loads `m_size` at capacity; `delete_key` of 3 empties the list; the eviction of
    `insert` finds nothing and counts as done, so that 4 is linked and never counted; `delete_key`
    of 4 then decrements `m_size` at zero. -/
theorem delete_wraps_size : ∃ (t : Threads ℕ ℕ) (H : List (ThreadStep ℕ ℕ × Told ℕ)),
    Run Threads.step Enabled (init 1) H t ∧ t.calls = [] ∧ t.shared.m_map = ∅ ∧
    t.shared.heap.next .m_head = some .m_tail ∧ t.shared.m_size = 2 ^ 64 - 1 :=
  ⟨_,
    [(.insert 0 3 7, .nothing), (.go 0 true, .nothing), (.go 0 true, .nothing),
      (.go 0 true, .nothing), (.go 0 true, .nothing), (.go 0 true, .inserted true),
      (.insert 1 4 8, .nothing), (.go 1 true, .nothing), (.go 1 true, .nothing),
      (.delete 2 3, .nothing), (.go 2 true, .nothing), (.go 2 true, .nothing),
      (.go 2 true, .nothing), (.go 2 true, .deleted),
      (.go 1 true, .listEmpty), (.go 1 true, .nothing), (.go 1 true, .inserted true),
      (.delete 3 4, .nothing), (.go 3 true, .nothing), (.go 3 true, .nothing),
      (.go 3 true, .nothing), (.go 3 true, .deleted)],
    .cons (by decide) rfl (.cons (by decide) rfl (.cons (by decide) rfl (.cons (by decide) rfl
      (.cons (by decide) rfl (.cons (by decide) rfl (.cons (by decide) rfl (.cons (by decide) rfl
      (.cons (by decide) rfl (.cons (by decide) rfl (.cons (by decide) rfl (.cons (by decide) rfl
      (.cons (by decide) rfl (.cons (by decide) rfl (.cons (by decide) rfl (.cons (by decide) rfl
      (.cons (by decide) rfl (.cons (by decide) rfl (.cons (by decide) rfl (.cons (by decide) rfl
      (.cons (by decide) rfl (.cons (by decide) rfl .nil))))))))))))))))))))), rfl, rfl, rfl, rfl⟩

end FrozenHot.Threads
