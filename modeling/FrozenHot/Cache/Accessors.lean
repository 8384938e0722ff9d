import FrozenHot.Cache.Deletions

/-! The accessor that an eviction of `insert` waits for.

    `insert` holds the accessor of its key while `evict` waits for that of the victim. The first
    eviction comes before the node is linked, so that the victim is another one. The second comes
    after, and then the nodes behind the own one are those that were on the list when it was linked
    and that no call has evicted, deleted or promoted since. With the last of them gone the call
    waits for itself. -/

namespace FrozenHot

/-- The number under which a call comes in. -/
def ThreadStep.enters {K V : Type} : ThreadStep K V → Option ℕ
  | .insert i _ _ | .find i _ | .delete i _ => some i
  | .go _ _ => none

namespace Threads
open Schemes

variable {K V : Type} [DecidableEq K] {σ : PlainCache K V} {R F D : List Ptr} {i j : ℕ}
    {lock : Bool}
variable {c : CallAt K V} {d : Option (CallAt K V)} {p q : Pool (CallAt K V)} {o : Told V} {k : K}
variable {t t' : Threads K V} {ks seen : List K} {m n : Ptr}

/-! ### Any interleaving -/

/-- What holds in any interleaving, whether or not evictions find a node. -/
structure Held (t : Threads K V) : Prop where
  distinct : t.calls.Distinct
  stored : ∃ R, Stored t.shared t.calls R
  locks : Locks t.shared t.calls

theorem held_init (maxSize : ℕ) : Held (init maxSize : Threads K V) :=
  ⟨List.nodup_nil, ⟨[], (sane_init maxSize).toStored⟩, ⟨List.Pairwise.nil, nofun, nofun⟩⟩

/-- A call comes in. -/
theorem Held.add (hk : Held t) (hi : i ∉ t.calls.map Prod.fst) (hc : Fresh c) :
    Held { t with calls := t.calls.add i c } := by
  obtain ⟨R, hs⟩ := hk.stored
  obtain ⟨hsees, hl⟩ := hk.locks.add hc.holds hc.node
  exact ⟨List.nodup_cons.mpr ⟨hi, hk.distinct⟩, ⟨R, hs.add hc.off hsees⟩, hl⟩

theorem Held.step {e : ThreadStep K V} (hk : Held t) (he : t.Enabled e)
    (h : t.step e = .ok (o, t')) :
    Held t' := by
  cases e with
  | insert i key value => cases h; exact hk.add he.1 (fresh_insert key value)
  | find i key => cases h; exact hk.add he.1 (fresh_find key)
  | delete i key => cases h; exact hk.add he.1 (fresh_delete key)
  | go i lock =>
    obtain ⟨c, hc, hfree⟩ := he
    obtain ⟨R, hs⟩ := hk.stored
    obtain ⟨o', t₁, d, q, R', hstep, hw, hs', -⟩ := hs.go hk.distinct hc hfree lock
    rw [h] at hstep
    cases hstep
    exact ⟨hw.distinct, ⟨R', hs'⟩, hk.locks.went hw hfree⟩

omit [DecidableEq K] in
theorem keyOf_eq_ok {h : Heap Ptr (Option K)} :
    PlainCache.keyOf h m = .ok k ↔ h.val m = some (some k) := by
  refine ⟨fun hk => ?_, PlainCache.keyOf_eq⟩
  simp only [PlainCache.keyOf, Heap.getVal, Heap.read] at hk
  cases hm : h m with
  | none => rw [hm] at hk; cases hk
  | some x =>
    rw [hm] at hk
    cases hx : x.val with
    | none => simp [hx] at hk
    | some k' => simpa [Heap.val, hm, hx] using hk

/-- The first eviction has selected a node of another key. -/
theorem Held.evicting (hk : Held t) {node : Ptr} {s : ℕ}
    (hc : t.calls.get i = some (.evicting k node s m)) :
    PlainCache.keyOf t.shared.heap m ≠ .ok k := by
  intro hkey
  obtain ⟨R, hs⟩ := hk.stored
  obtain ⟨A, B, hp, -⟩ := Pool.split hk.distinct hc
  have hperm : t.calls.Perm ((i, .evicting k node s m) :: (A ++ B)) := by
    rw [hp]; exact List.perm_middle
  have hstore := (hs.perm hperm).store
  obtain ⟨v, hnode⟩ := hk.locks.node (i, .evicting k node s m) (Pool.mem_of_get hc) k node rfl
  obtain ⟨k', v', hval, hlk⟩ := hstore.entry m (by simp [off, offNodes])
  rw [keyOf_eq_ok.mp hkey] at hval
  cases hval
  rw [hnode] at hlk
  cases hlk
  have hnodup : (m :: m :: off (A ++ B)).Nodup := (List.nodup_append.mp hstore.nodup).2.1
  simp at hnodup

/-- The second eviction selects the node of its own key exactly if that is the last one. -/
theorem Stored.selects {v : V} (hs : Stored t.shared t.calls R) (hd : t.calls.Distinct)
    (hn : t.shared.m_map.lookup k = some ⟨v, n⟩) (hc : t.calls.get i = some (.overfull k))
    (h : t.step (.go i lock) = .ok (o, t')) :
    (∃ m, t'.calls.get i = some (.shedding k m) ∧ PlainCache.keyOf t'.shared.heap m = .ok k) ↔
      ∃ F, R = F ++ [n] := by
  obtain ⟨d, q, hw⟩ := went_of_step hd hc h
  have hact := hw.act
  rcases List.eq_nil_or_concat R with rfl | ⟨R', m, rfl⟩
  · simp only [Threads.act, hs.store.delinkTail_nil, ok_bind, pure_eq_ok, Except.ok.injEq,
      Prod.mk.injEq] at hact
    obtain ⟨-, rfl, -⟩ := hact
    simp [hw.get]
  · rw [List.concat_eq_append] at hs ⊢
    obtain ⟨h', hd, hv, -⟩ := hs.store.delinkTail
    simp only [Threads.act, hd, ok_bind, pure_eq_ok, Except.ok.injEq, Prod.mk.injEq] at hact
    obtain ⟨-, rfl, hσ⟩ := hact
    obtain ⟨hmem, hval⟩ := hs.store.mem k _ hn
    have hlast : t.shared.heap.val m = some (some k) ↔ m = n :=
      ⟨fun hm => hs.store.node_eq (by simp) hmem (hm.trans hval.symm), fun hm => hm ▸ hval⟩
    simp only [hw.get, Option.some.injEq, CallAt.shedding.injEq, true_and, exists_eq_left', ← hσ,
      keyOf_eq_ok, hv, hlast]
    constructor
    · rintro rfl
      exact ⟨R', rfl⟩
    · rintro ⟨F, hF⟩
      simpa using (List.append_inj' hF rfl).2

/-! ### The nodes behind the own one -/

omit [DecidableEq K] in
theorem erase_middle (hd : (F ++ n :: D).Nodup) (hne : m ≠ n) :
    (F ++ n :: D).erase m = F.erase m ++ n :: D.erase m := by
  rw [List.erase_append]
  split
  · rename_i hm
    have hmD : m ∉ D := fun h => (List.nodup_append'.mp hd).2.2 hm (by simp [h])
    rw [List.erase_of_not_mem hmD]
  · rename_i hm
    rw [List.erase_of_not_mem hm, List.erase_cons_tail (by simpa using hne.symm)]

/-- What is left behind `n` when a node that carries another key is taken from its place. -/
theorem Store.taken {O A B : List Ptr} {k k' : K} (hst : Store σ (F ++ n :: D) O)
    (hk : σ.heap.val n = some (some k)) (hne : k' ≠ k) (heq : F ++ n :: D = A ++ m :: B)
    (hval : σ.heap.val m = some (some k')) :
    A ++ B = F.erase m ++ n :: D.erase m ∧
      ∀ x, x ∈ D.erase m ↔ x ∈ D ∧ σ.heap.val x ≠ some (some k') := by
  have hnodup := (List.nodup_append.mp hst.nodup).1
  have hmn : m ≠ n := by
    rintro rfl
    rw [hk] at hval
    cases hval
    exact hne rfl
  have hmA : m ∉ A := by
    intro h
    rw [heq] at hnodup
    exact (List.nodup_append'.mp hnodup).2.2 h (by simp)
  have hmem : m ∈ F ++ n :: D ++ O := List.mem_append_left _ (by simp [heq])
  refine ⟨?_, fun x => ?_⟩
  · rw [← erase_middle hnodup hmn, heq, List.erase_append_right _ hmA, List.erase_cons_head]
  · have hDnodup : D.Nodup := (List.nodup_cons.mp (List.nodup_append.mp hnodup).2.1).2
    rw [hDnodup.mem_erase_iff, and_comm]
    refine and_congr_right fun hx => ⟨?_, ?_⟩
    · intro hxm h
      exact hxm (hst.node_eq (by simp [hx]) hmem (h.trans hval.symm))
    · rintro h rfl
      exact h hval

/-- A step that does not move the node of `k` takes at most the node that it moves from behind
    it. -/
theorem Turns.behind {R' O : List Ptr} (hst : Store σ (F ++ n :: D) O)
    (ht : Turns lock σ c (F ++ n :: D) R') (hk : σ.heap.val n = some (some k))
    (hne : moves lock σ c ≠ some k) :
    ∃ F' D', R' = F' ++ n :: D' ∧
      ∀ m, m ∈ D' ↔ m ∈ D ∧ ∀ k', moves lock σ c = some k' → σ.heap.val m ≠ some (some k') := by
  cases ht with
  | stays hm => exact ⟨F, D, rfl, by simp [hm]⟩
  | @links _ x hm _ => exact ⟨x :: F, D, rfl, by simp [hm]⟩
  | takes hm heq hval =>
    rw [hm] at hne
    obtain ⟨hAB, hmem⟩ := hst.taken hk (fun h => hne (congrArg some h)) heq hval
    exact ⟨_, _, hAB, by simpa [hm] using hmem⟩
  | @promotes _ A B x hm _ heq hval =>
    rw [hm] at hne
    obtain ⟨hAB, hmem⟩ := hst.taken hk (fun h => hne (congrArg some h)) heq hval
    exact ⟨x :: F.erase x, D.erase x, by rw [hAB]; rfl, by simpa [hm] using hmem⟩
  | misses hm hval =>
    refine ⟨F, D, rfl, fun x => ⟨fun hx => ⟨hx, ?_⟩, And.left⟩⟩
    rintro k' hk'
    rw [hm] at hk'
    cases hk'
    exact hval x (by simp [hx])

/-- The node `n` of the key `k` was linked when the keys `ks` were on the list, and the nodes of the
    keys `seen` have been moved since: the nodes behind it are those of the others of `ks`, unless
    it has been taken off itself. -/
structure Tracked (k : K) (n : Ptr) (ks seen : List K) (t : Threads K V) (R : List Ptr) : Prop where
  stored : Stored t.shared t.calls R
  entry : ∃ v, t.shared.m_map.lookup k = some ⟨v, n⟩
  gone : k ∈ seen → n ∉ R
  behind : k ∉ seen → ∃ F D, R = F ++ n :: D ∧
    ∀ k', (∃ m ∈ D, t.shared.heap.val m = some (some k')) ↔ k' ∈ ks ∧ k' ∉ seen

theorem Tracked.val (ht : Tracked k n ks seen t R) : t.shared.heap.val n = some (some k) := by
  obtain ⟨v, hv⟩ := ht.entry
  exact (ht.stored.store.mem k _ hv).2

omit [DecidableEq K] in
/-- A node that is off the list stays off it, unless it is linked as a new one. -/
theorem Turns.notMem {R' : List Ptr} (ht : Turns lock σ c R R') (hn : n ∉ R)
    (hnew : ∀ k, newNode c ≠ some (k, n)) :
    n ∉ R' := by
  cases ht with
  | stays _ => exact hn
  | misses _ _ => exact hn
  | links _ hc =>
    rintro (_ | ⟨_, h⟩)
    · exact hnew _ hc
    · exact hn h
  | takes _ heq _ =>
    subst heq
    exact fun h => hn (by simp at h ⊢; tauto)
  | promotes _ _ heq _ =>
    subst heq
    exact fun h => hn (by simp at h ⊢; tauto)

/-- A step that takes the node of `k` from its place without holding the accessor takes it off. -/
theorem Turns.notMem_of_moves {R' O : List Ptr} (hst : Store σ R O) (ht : Turns lock σ c R R')
    (hk : σ.heap.val n = some (some k)) (hn : n ∈ R ++ O) (hm : moves lock σ c = some k)
    (hh : c.holds ≠ some k) :
    n ∉ R' := by
  cases ht with
  | stays h => rw [hm] at h; cases h
  | links h _ => rw [hm] at h; cases h
  | @takes k' A B x h heq hval =>
    rw [hm] at h
    cases h
    subst heq
    obtain rfl := hst.node_eq hn (by simp) (hk.trans hval.symm)
    exact (List.nodup_cons.mp (List.nodup_middle.mp (List.nodup_append.mp hst.nodup).1)).1
  | promotes h hh' _ _ =>
    rw [hm] at h
    cases h
    exact absurd hh' hh
  | misses h hval =>
    rw [hm] at h
    cases h
    exact fun h => hval n h hk

/-- What a step of a call does to the nodes behind the own one. -/
theorem Tracked.turns {R' : List Ptr} (ht : Tracked k n ks seen t R)
    (hs : Stored t'.shared t'.calls R') (hturn : Turns lock t.shared c R R')
    (hval : ∀ x ∈ R, t'.shared.heap.val x = t.shared.heap.val x)
    (hentry : ∃ v, t'.shared.m_map.lookup k = some ⟨v, n⟩) (hnew : ∀ k, newNode c ≠ some (k, n))
    (hhold : moves lock t.shared c = some k → c.holds ≠ some k) :
    Tracked k n ks (seen ++ (moves lock t.shared c).toList) t' R' := by
  obtain ⟨v, hv⟩ := ht.entry
  have hmem := (ht.stored.store.mem k _ hv).1
  refine ⟨hs, hentry, fun hk => ?_, fun hk => ?_⟩
  · rcases List.mem_append.mp hk with hk | hk
    · exact hturn.notMem (ht.gone hk) hnew
    · have hm : moves lock t.shared c = some k := by simpa using hk
      exact hturn.notMem_of_moves ht.stored.store ht.val hmem hm (hhold hm)
  · rw [List.mem_append, not_or] at hk
    have hne : moves lock t.shared c ≠ some k := by simpa using hk.2
    obtain ⟨F, D, rfl, hD⟩ := ht.behind hk.1
    obtain ⟨F', D', rfl, hD'⟩ := hturn.behind ht.stored.store ht.val hne
    refine ⟨F', D', rfl, fun k' => ?_⟩
    have hstep : (∃ m ∈ D', t'.shared.heap.val m = some (some k')) ↔
        (∃ m ∈ D, t.shared.heap.val m = some (some k')) ∧ moves lock t.shared c ≠ some k' := by
      constructor
      · rintro ⟨m, hm, hmk⟩
        obtain ⟨hmD, hmne⟩ := (hD' m).mp hm
        rw [hval m (by simp [hmD])] at hmk
        exact ⟨⟨m, hmD, hmk⟩, fun h => hmne k' h hmk⟩
      · rintro ⟨⟨m, hmD, hmk⟩, hmne⟩
        refine ⟨m, (hD' m).mpr ⟨hmD, fun k'' hk'' h => ?_⟩, (hval m (by simp [hmD])).trans hmk⟩
        rw [hmk] at h
        cases h
        exact hmne hk''
    rw [hstep, hD k', List.mem_append, not_or, and_assoc, Option.mem_toList]

/-- The second eviction of the call that has linked the node. -/
theorem Tracked.selects (ht : Tracked k n ks seen t R) (hd : t.calls.Distinct)
    (hc : t.calls.get i = some (.overfull k)) (h : t.step (.go i lock) = .ok (o, t')) :
    (∃ m, t'.calls.get i = some (.shedding k m) ∧ PlainCache.keyOf t'.shared.heap m = .ok k) ↔
      k ∉ seen ∧ ∀ k' ∈ ks, k' ∈ seen := by
  obtain ⟨v, hv⟩ := ht.entry
  rw [ht.stored.selects hd hv hc h]
  constructor
  · rintro ⟨F, rfl⟩
    have hk : k ∉ seen := fun hk => ht.gone hk (by simp)
    obtain ⟨F', D, heq, hD⟩ := ht.behind hk
    have hnil : D = [] := by
      have hnodup := (List.nodup_append.mp ht.stored.store.nodup).1
      rcases List.eq_nil_or_concat D with rfl | ⟨D', x, rfl⟩
      · rfl
      · rw [List.concat_eq_append, ← List.cons_append, ← List.append_assoc] at heq
        have hx := (List.append_inj' heq rfl).2
        rw [heq, List.singleton_inj.mp hx] at hnodup
        have hdis : List.Disjoint (F' ++ x :: D') [x] := (List.nodup_append'.mp hnodup).2.2
        exact (hdis (a := x) (by simp) (by simp)).elim
    refine ⟨hk, fun k' hk' => ?_⟩
    by_contra hns
    obtain ⟨m, hm, -⟩ := (hD k').mpr ⟨hk', hns⟩
    rw [hnil] at hm
    cases hm
  · rintro ⟨hk, hks⟩
    obtain ⟨F, D, rfl, hD⟩ := ht.behind hk
    have hnil : D = [] := List.eq_nil_iff_forall_not_mem.mpr fun m hm => by
      obtain ⟨k', v', hk', -⟩ := ht.stored.store.entry m (by simp [hm])
      obtain ⟨hin, hout⟩ := (hD k').mp ⟨m, hm, hk'⟩
      exact hout (hks k' hin)
    exact ⟨F, by rw [hnil]⟩

/-! ### From the linking to the second eviction -/

/-- The key whose node a step takes from its place in the list. -/
def moved (t : Threads K V) : ThreadStep K V → Option K
  | .go i lock => (t.calls.get i).bind (moves lock t.shared)
  | _ => none

/-- Call `i`, if it is still in flight, has linked the node, and until its second eviction the nodes
    behind it are known. -/
structure Waits (i : ℕ) (k : K) (n : Ptr) (ks : List K) (t : Threads K V) (seen : List K) :
    Prop where
  held : Held t
  call : ∀ c, t.calls.get i = some c → pushed c = some k ∧
    (victim c = none → ∃ R, Tracked k n ks seen t R)

/-- Nobody else has the accessor that a call holds exclusively. -/
theorem Locks.not_holds {b : CallAt K V} (hl : Locks t.shared t.calls) (hi : t.calls.get i = some c)
    (hk : c.writes = some k) (hj : t.calls.get j = some b) (hij : j ≠ i) : b.holds ≠ some k := by
  have hsymm : Std.Symm fun x y : ℕ × CallAt K V => Compatible x.2 y.2 := ⟨fun _ _ h => h.symm⟩
  refine (hl.exclusive.forall (Pool.mem_of_get hi) (Pool.mem_of_get hj) ?_ k).1 hk
  intro h
  exact hij (congrArg Prod.fst h).symm

/-- A step keeps the entries of the keys whose accessors other calls hold. -/
theorem Accesses.lookup {m m' : Finmap fun _ : K => HashMapValue V} (ha : Accesses q m m' c d)
    {x : ℕ × CallAt K V} (hx : x ∈ q) (hk : x.2.holds = some k) : m'.lookup k = m.lookup k := by
  cases ha with
  | stays hm _ => rw [hm]
  | shares hm _ _ _ _ => rw [hm]
  | inserts _ hm hfree =>
    rw [hm]
    refine Finmap.lookup_insert_of_ne _ ?_
    rintro rfl
    exact hfree x hx hk
  | erases hm hfree _ =>
    rw [hm]
    refine Finmap.lookup_erase_ne ?_
    rintro rfl
    exact hfree x hx hk

/-- A step of another call. -/
theorem Waits.other {b : CallAt K V} (hw : Waits i k n ks t seen) (hij : i ≠ j)
    (hc : t.calls.get j = some b) (hfree : t.Free j b) (h : t.step (.go j lock) = .ok (o, t')) :
    Waits i k n ks t' (seen ++ (moves lock t.shared b).toList) := by
  refine ⟨hw.held.step (e := .go j lock) ⟨b, hc, hfree⟩ h, fun c hi' => ?_⟩
  obtain ⟨d, q, hwent⟩ := went_of_step hw.held.distinct hc h
  obtain ⟨hq, hi⟩ := hwent.get_of_ne hw.held.distinct hij hi'
  obtain ⟨hpushed, htracked⟩ := hw.call c hi
  refine ⟨hpushed, fun hv => ?_⟩
  obtain ⟨R, ht⟩ := htracked hv
  obtain ⟨v, hlk⟩ := ht.entry
  have hk := writes_of_pushed hpushed
  have hfree' := hw.held.locks.not_holds hi hk hc hij.symm
  obtain ⟨_, _, _, _, R', hstep, -, hs', ⟨hturn, hval⟩, -⟩ :=
    ht.stored.go hw.held.distinct hc hfree lock
  rw [h] at hstep
  cases hstep
  refine ⟨R', ht.turns hs' hturn hval ⟨v, ?_⟩ (fun k' hn => ?_) fun _ => hfree'⟩
  · have ha := (act_acts hwent.act).accesses (hfree.perm hwent.before) hwent.others
    rw [ha.lookup hq (holds_of_writes hk)]
    exact hlk
  · -- the new node of another call has another key
    obtain ⟨v', hlk'⟩ := hw.held.locks.node (j, b) (Pool.mem_of_get hc) k' n hn
    have hval' := (ht.stored.store.mem k' _ hlk').2
    rw [ht.val] at hval'
    cases hval'
    exact hfree' (holds_of_writes (writes_of_newNode hn))

/-- Until its second eviction a call that has linked its node changes the counter only. -/
theorem Acts.pushed {y : CallAt K V} {σ' : PlainCache K V} (ha : Acts lock σ c (some y) σ')
    (hk : pushed c = some k) : Threads.pushed y = some k ∧
      (victim y = none → victim c = none ∧ moves lock σ c = none ∧ σ'.m_map = σ.m_map) := by
  cases ha with
  | counts => exact ⟨hk, fun _ => ⟨rfl, rfl, rfl⟩⟩
  | overfull _ => exact ⟨hk, fun _ => ⟨rfl, rfl, rfl⟩⟩
  | sheds => exact ⟨hk, nofun⟩
  | _ => cases hk

/-- A step of the call itself. -/
theorem Waits.own (hw : Waits i k n ks t seen) (hc : t.calls.get i = some c) (hfree : t.Free i c)
    (h : t.step (.go i lock) = .ok (o, t')) :
    Waits i k n ks t' (seen ++ (moves lock t.shared c).toList) := by
  refine ⟨hw.held.step (e := .go i lock) ⟨c, hc, hfree⟩ h, fun y hy => ?_⟩
  obtain ⟨hpushed, htracked⟩ := hw.call c hc
  obtain ⟨d, q, hwent⟩ := went_of_step hw.held.distinct hc h
  cases hwent.get.symm.trans hy
  obtain ⟨hpushed', hquiet⟩ := (act_acts hwent.act).pushed hpushed
  refine ⟨hpushed', fun hv => ?_⟩
  obtain ⟨hv', hmoves, hmap⟩ := hquiet hv
  obtain ⟨R, ht⟩ := htracked hv'
  obtain ⟨_, _, _, _, R', hstep, -, hs', ⟨hturn, hval⟩, -⟩ :=
    ht.stored.go hw.held.distinct hc hfree lock
  rw [h] at hstep
  cases hstep
  refine ⟨R', ht.turns hs' hturn hval ?_ (fun k' hn => ?_) (fun hm => ?_)⟩
  · rw [hmap]
    exact ht.entry
  · cases c <;> cases hpushed <;> cases hn
  · rw [hmoves] at hm
    cases hm

/-- A call that comes in under another number. -/
theorem Waits.add (hw : Waits i k n ks t seen) (hij : i ≠ j) (hj : j ∉ t.calls.map Prod.fst)
    (hc : Fresh c) :
    Waits i k n ks { t with calls := t.calls.add j c } seen := by
  refine ⟨hw.held.add hj hc, fun b hb => ?_⟩
  have hi : t.calls.get i = some b := by simpa [Pool.get, Pool.add, hij.symm] using hb
  obtain ⟨hpushed, htracked⟩ := hw.call b hi
  refine ⟨hpushed, fun hv => ?_⟩
  obtain ⟨R, ht⟩ := htracked hv
  have hsees := (hw.held.locks.add (i := j) hc.holds hc.node).1
  exact ⟨R, ht.stored.add hc.off hsees, ht.entry, ht.gone, ht.behind⟩

theorem Waits.step {e : ThreadStep K V} (hw : Waits i k n ks t seen) (he : t.Enabled e)
    (hi : e.enters ≠ some i) (h : t.step e = .ok (o, t')) :
    Waits i k n ks t' (seen ++ (moved t e).toList) := by
  cases e with
  | insert j key value =>
    cases h
    simpa [moved] using hw.add (by rintro rfl; exact hi rfl) he.1 (fresh_insert key value)
  | find j key =>
    cases h
    simpa [moved] using hw.add (by rintro rfl; exact hi rfl) he.1 (fresh_find key)
  | delete j key =>
    cases h
    simpa [moved] using hw.add (by rintro rfl; exact hi rfl) he.1 (fresh_delete key)
  | go j lock =>
    obtain ⟨c, hc, hfree⟩ := he
    rw [moved, Option.mem_def.mp hc, Option.bind_some]
    by_cases hij : i = j
    · subst hij
      exact hw.own hc hfree h
    · exact hw.other hij hc hfree h

/-- A call links its node in front of the list. -/
theorem waits_link {s : ℕ} {done : Bool} (hk : Held t)
    (hc : t.calls.get i = some (.room k n s done)) (hks : t.shared.snapshotKeys = .ok ks)
    (h : t.step (.go i lock) = .ok (o, t')) :
    Waits i k n ks t' [] := by
  obtain ⟨R, hs⟩ := hk.stored
  obtain ⟨ks', hks', hmem⟩ := hs.store.snapshot
  cases hks.symm.trans hks'
  obtain ⟨v, hv⟩ := hk.locks.node _ (Pool.mem_of_get hc) k n rfl
  obtain ⟨d, q, hwent⟩ := went_of_step hk.distinct hc h
  have hs := hs.perm hwent.before
  obtain ⟨h', hpush, hval, hst⟩ := hs.store.push
  have hact := hwent.act
  simp only [act, hpush, ok_bind, pure_eq_ok, Except.ok.injEq, Prod.mk.injEq] at hact
  obtain ⟨-, rfl, hσ⟩ := hact
  refine ⟨hk.step (e := .go i lock) ⟨_, hc, trivial⟩ h, fun c hc' => ?_⟩
  cases hwent.get.symm.trans hc'
  refine ⟨by cases done <;> rfl, fun _ => ⟨n :: R, Stored.perm ?_ hwent.after.symm, ⟨v, ?_⟩,
    fun hk => absurd hk List.not_mem_nil, fun _ => ⟨[], R, rfl, fun k' => ?_⟩⟩⟩
  · rw [← hσ]
    refine hs.moves ?_ rfl ?_
    · cases done <;> exact hst
    · cases done <;> rfl
  · rw [← hσ]
    exact hv
  · rw [← hσ]
    simp [hval, hmem]

/-- With calls in flight in any interleaving: the first eviction of an `insert` never selects the
    node of its own key. The second does exactly if since the node was linked every key that was on
    the list then has been evicted, deleted or promoted, and the node itself has not been evicted by
    another call. -/
theorem evict_spares_own_key {maxSize : ℕ} {A : List (ThreadStep K V × Told V)}
    (hrun : Run Threads.step Enabled (init maxSize) A t) :
    (∀ i k n s m, t.calls.get i = some (.evicting k n s m) →
      PlainCache.keyOf t.shared.heap m ≠ .ok k) ∧
    ∃ ks, t.shared.snapshotKeys = .ok ks ∧
      ∀ i k n s done lock o t₁ B t₂ lock' o' t₃, t.calls.get i = some (.room k n s done) →
        t.step (.go i lock) = .ok (o, t₁) → Run Threads.step Enabled t₁ B t₂ →
        (∀ x ∈ B, x.1.enters ≠ some i) → t₂.calls.get i = some (.overfull k) →
        t₂.step (.go i lock') = .ok (o', t₃) →
        ((∃ m, t₃.calls.get i = some (.shedding k m) ∧ PlainCache.keyOf t₃.shared.heap m = .ok k) ↔
          k ∉ trail Threads.step moved t₁ (B.map Prod.fst) ∧
          ∀ k' ∈ ks, k' ∈ trail Threads.step moved t₁ (B.map Prod.fst)) := by
  have hheld : Held t := hrun.invariant Held (held_init maxSize) fun s e o s' hk he _ h =>
    hk.step he h
  obtain ⟨R, hs⟩ := hheld.stored
  obtain ⟨ks, hks, -⟩ := hs.store.snapshot
  refine ⟨fun i k n s m => hheld.evicting, ks, hks,
    fun i k n s done lock o t₁ B t₂ lock' o' t₃ hc hlink hB hi hover h => ?_⟩
  have hw : Waits i k n ks t₂ (trail Threads.step moved t₁ (B.map Prod.fst)) :=
    hB.invariant_trail (Waits i k n ks) (waits_link hheld hc hks hlink)
      fun s₁ seen e o s₂ hw he hmem hs => hw.step he (hi _ hmem) hs
  obtain ⟨R, ht⟩ := (hw.call _ hover).2 rfl
  exact ht.selects hw.held.distinct hover h

/-- Calls 1 and 2 both find room for one, so that call 3 has to evict twice. The keys 5 and 4 are on
    the list when it links its node; 4 is promoted, and the second eviction selects the node of
    5. -/
theorem evict_spares_own_key_two :
    ∃ (t t₁ t₂ t₃ : Threads ℕ ℕ) (A B : List (ThreadStep ℕ ℕ × Told ℕ)),
    Run Threads.step Enabled (init 2) A t ∧ t.shared.snapshotKeys = .ok [5, 4] ∧
    t.step (.go 3 true) = .ok (.nothing, t₁) ∧ Run Threads.step Enabled t₁ B t₂ ∧
    trail Threads.step moved t₁ (B.map Prod.fst) = [4] ∧ t₂.step (.go 3 true) = .ok (.nothing, t₃) ∧
    ∃ m, t₃.calls.get 3 = some (.shedding 6 m) ∧ PlainCache.keyOf t₃.shared.heap m ≠ .ok 6 := by
  obtain ⟨t, t₁, t₂, t₃, n, m, A, B, hA, hroom, hks, hlink, hB, henters, htrail, hover, hstep, hm⟩ :
      ∃ (t t₁ t₂ t₃ : Threads ℕ ℕ) (n m : Ptr) (A B : List (ThreadStep ℕ ℕ × Told ℕ)),
        Run Threads.step Enabled (init 2) A t ∧ t.calls.get 3 = some (.room 6 n 3 true) ∧
        t.shared.snapshotKeys = .ok [5, 4] ∧ t.step (.go 3 true) = .ok (.nothing, t₁) ∧
        Run Threads.step Enabled t₁ B t₂ ∧ (∀ x ∈ B, x.1.enters ≠ some 3) ∧
        trail Threads.step moved t₁ (B.map Prod.fst) = [4] ∧ t₂.calls.get 3 = some (.overfull 6) ∧
        t₂.step (.go 3 true) = .ok (.nothing, t₃) ∧ t₃.calls.get 3 = some (.shedding 6 m) :=
    ⟨_, _, _, _, _, _,
      [(.insert 0 3 7, .nothing), (.go 0 true, .nothing), (.go 0 true, .nothing),
        (.go 0 true, .nothing), (.go 0 true, .nothing), (.go 0 true, .inserted true),
        (.insert 1 4 8, .nothing), (.go 1 true, .nothing), (.insert 2 5 9, .nothing),
        (.go 2 true, .nothing), (.go 1 true, .nothing), (.go 2 true, .nothing),
        (.go 1 true, .nothing), (.go 1 true, .nothing), (.go 1 true, .inserted true),
        (.go 2 true, .nothing), (.go 2 true, .nothing), (.go 2 true, .inserted true),
        (.insert 3 6 7, .nothing), (.go 3 true, .nothing), (.go 3 true, .nothing),
        (.go 3 true, .nothing), (.go 3 true, .nothing)],
      [(.find 4 4, .nothing), (.go 4 true, .nothing), (.go 4 true, .found (some 8)),
        (.go 3 true, .nothing)],
      .cons (by decide) rfl (.cons (by decide) rfl (.cons (by decide) rfl (.cons (by decide) rfl
        (.cons (by decide) rfl (.cons (by decide) rfl (.cons (by decide) rfl (.cons (by decide) rfl
        (.cons (by decide) rfl (.cons (by decide) rfl (.cons (by decide) rfl (.cons (by decide) rfl
        (.cons (by decide) rfl (.cons (by decide) rfl (.cons (by decide) rfl (.cons (by decide) rfl
        (.cons (by decide) rfl (.cons (by decide) rfl (.cons (by decide) rfl (.cons (by decide) rfl
        (.cons (by decide) rfl (.cons (by decide) rfl
          (.cons (by decide) rfl .nil)))))))))))))))))))))),
      rfl, rfl, rfl,
      .cons (by decide) rfl (.cons (by decide) rfl
        (.cons (by decide) rfl (.cons (by decide) rfl .nil))),
      by decide, rfl, rfl, rfl, rfl⟩
  obtain ⟨-, ks, hks', hsecond⟩ := evict_spares_own_key hA
  cases hks.symm.trans hks'
  have hiff := hsecond 3 6 n 3 true true _ t₁ B t₂ true _ t₃ hroom hlink hB henters hover hstep
  refine ⟨t, t₁, t₂, t₃, A, B, hA, hks, hlink, hB, htrail, hstep, m, hm, fun hkey => ?_⟩
  rw [htrail] at hiff
  exact absurd ((hiff.mp ⟨m, hm, hkey⟩).2 5 (by decide)) (by decide)

/-- Calls 1 and 2 both find room for one, so that call 3 has to evict twice. Before its second
    eviction the two other keys are looked up and promoted: it selects its own node, and waits for
    the accessor that it holds itself. -/
theorem evict_selects_own_key : ∃ (t : Threads ℕ ℕ) (H : List (ThreadStep ℕ ℕ × Told ℕ)),
    Run Threads.step Enabled (init 2) H t ∧ ∃ m, t.calls.get 3 = some (.shedding 6 m) ∧
      PlainCache.keyOf t.shared.heap m = .ok 6 ∧ t.calls.length = 1 ∧ ¬ t.Enabled (.go 3 true) :=
  ⟨_,
    [(.insert 0 3 7, .nothing), (.go 0 true, .nothing), (.go 0 true, .nothing),
      (.go 0 true, .nothing), (.go 0 true, .nothing), (.go 0 true, .inserted true),
      (.insert 1 4 8, .nothing), (.go 1 true, .nothing), (.insert 2 5 9, .nothing),
      (.go 2 true, .nothing), (.go 1 true, .nothing), (.go 2 true, .nothing),
      (.go 1 true, .nothing), (.go 1 true, .nothing), (.go 1 true, .inserted true),
      (.go 2 true, .nothing), (.go 2 true, .nothing), (.go 2 true, .inserted true),
      (.insert 3 6 7, .nothing), (.go 3 true, .nothing), (.go 3 true, .nothing),
      (.go 3 true, .nothing), (.go 3 true, .nothing), (.go 3 true, .nothing),
      (.find 4 5, .nothing), (.go 4 true, .nothing), (.go 4 true, .found (some 9)),
      (.find 5 4, .nothing), (.go 5 true, .nothing), (.go 5 true, .found (some 8)),
      (.go 3 true, .nothing), (.go 3 true, .nothing)],
    .cons (by decide) rfl (.cons (by decide) rfl (.cons (by decide) rfl (.cons (by decide) rfl
      (.cons (by decide) rfl (.cons (by decide) rfl (.cons (by decide) rfl (.cons (by decide) rfl
      (.cons (by decide) rfl (.cons (by decide) rfl (.cons (by decide) rfl (.cons (by decide) rfl
      (.cons (by decide) rfl (.cons (by decide) rfl (.cons (by decide) rfl (.cons (by decide) rfl
      (.cons (by decide) rfl (.cons (by decide) rfl (.cons (by decide) rfl (.cons (by decide) rfl
      (.cons (by decide) rfl (.cons (by decide) rfl (.cons (by decide) rfl (.cons (by decide) rfl
      (.cons (by decide) rfl (.cons (by decide) rfl (.cons (by decide) rfl (.cons (by decide) rfl
      (.cons (by decide) rfl (.cons (by decide) rfl (.cons (by decide) rfl (.cons (by decide) rfl
      .nil))))))))))))))))))))))))))))))), _, rfl, rfl, rfl, by decide⟩

end Threads
end FrozenHot
