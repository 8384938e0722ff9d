import FrozenHot.Freeze.Calls

/-! What every call keeps of the heap, whatever lists it holds.

    No call links a node outside of a sentinel, that is behind a tail or in front of a head: a
    pointer read from `m_next` is never a head and one read from `m_prev` never a tail, and the code
    writes through and stores such pointers only. And no surgery stamps a node. -/

namespace FrozenHot.Shard
open Schemes

variable {α : Type} {h h' : Heap Ptr NodeData} {p q : Ptr} {σ σ' : Shard α} {R R' : Ptr → ℕ → Prop}

/-- Not a head: an `m_next` may lead here. -/
def Fore (p : Ptr) : Prop := p ≠ .m_head ∧ p ≠ .m_fast_head

/-- Not a tail: an `m_prev` may lead here. -/
def Aft (p : Ptr) : Prop := p ≠ .m_tail ∧ p ≠ .m_fast_tail

theorem Fore.of_isNode (hp : p.IsNode) : Fore p := ⟨hp.ne_of_not id, hp.ne_of_not id⟩

theorem Aft.of_isNode (hp : p.IsNode) : Aft p := ⟨hp.ne_of_not id, hp.ne_of_not id⟩

/-- The stamp of the node at a pointer. -/
def timeAt (h : Heap Ptr NodeData) (p : Ptr) : Option ℕ := (h.val p).map NodeData.m_time

/-- Links lead forth and back, no node is outside of a sentinel, and the stamps are as `R` says. -/
structure Ends (R : Ptr → ℕ → Prop) (h : Heap Ptr NodeData) : Prop where
  next : ∀ p q, h.next p = some q → Fore q ∧ (¬ Aft p → ¬ q.IsNode)
  prev : ∀ p q, h.prev p = some q → Aft q ∧ (¬ Fore p → ¬ q.IsNode)
  stamp : ∀ p u, timeAt h p = some u → R p u

theorem Ends.mono (he : Ends R h) (hR : ∀ p u, R p u → R' p u) : Ends R' h :=
  ⟨he.next, he.prev, fun p u hu => hR p u (he.stamp p u hu)⟩

/-- The stamps of the heap are what they are. -/
theorem Ends.own (he : Ends R h) : Ends (fun p u => timeAt h p = some u) h :=
  ⟨he.next, he.prev, fun _ _ hu => hu⟩

/-! ### Single accesses -/

theorem Ends.fore (he : Ends R h) (hg : h.getNext p = .ok q) : Fore q := by
  rw [Heap.getNext_def] at hg
  cases hn : h.next p with
  | none => simp [hn] at hg
  | some r =>
    obtain rfl : r = q := by simpa [hn] using hg
    exact (he.next p r hn).1

theorem Ends.aft (he : Ends R h) (hg : h.getPrev p = .ok q) : Aft q := by
  rw [Heap.getPrev_def] at hg
  cases hn : h.prev p with
  | none => simp [hn] at hg
  | some r =>
    obtain rfl : r = q := by simpa [hn] using hg
    exact (he.prev p r hn).1

/-- Overwriting a cell, with a stamp of its own. -/
theorem Ends.put (he : Ends R h) {c : Option (Cell Ptr NodeData)}
    (hR : ∀ q u, q ≠ p → R q u → R' q u)
    (hn : ∀ c' ∈ c, Fore c'.next ∧ (¬ Aft p → ¬ c'.next.IsNode))
    (hp : ∀ c' ∈ c, Aft c'.prev ∧ (¬ Fore p → ¬ c'.prev.IsNode))
    (hu : ∀ c' ∈ c, R' p c'.val.m_time) :
    Ends R' (h.put p c) := by
  refine ⟨fun x q hq => ?_, fun x q hq => ?_, fun x u hx => ?_⟩
  · rw [Heap.next_put] at hq
    split at hq
    · rename_i hx
      obtain ⟨c', hc, rfl⟩ := Option.map_eq_some_iff.mp hq
      exact hx ▸ hn c' hc
    · exact he.next x q hq
  · rw [Heap.prev_put] at hq
    split at hq
    · rename_i hx
      obtain ⟨c', hc, rfl⟩ := Option.map_eq_some_iff.mp hq
      exact hx ▸ hp c' hc
    · exact he.prev x q hq
  · rw [timeAt, Heap.val_put] at hx
    split at hx
    · rename_i hxp
      obtain ⟨d, hd, rfl⟩ := Option.map_eq_some_iff.mp hx
      obtain ⟨c', hc, rfl⟩ := Option.map_eq_some_iff.mp hd
      exact hxp ▸ hu c' hc
    · rename_i hxp
      exact hR x u hxp (he.stamp x u hx)

theorem Ends.free (he : Ends R h) (p : Ptr) : Ends R (h.free p) :=
  he.put (fun _ _ _ h => h) (by simp) (by simp) (by simp)

theorem read_eq_ok {c : Cell Ptr NodeData} (hr : h.read p = .ok c) : 
    h.next p = some c.next ∧ h.prev p = some c.prev ∧ timeAt h p = some c.val.m_time := by
  unfold Heap.read at hr
  cases hp : h p with
  | none => simp [hp] at hr
  | some d =>
    obtain rfl : d = c := by simpa [hp] using hr
    simp [Heap.next, Heap.prev, Heap.val, timeAt, hp]

theorem Ends.setNext (he : Ends R h) (hp : Aft p) (hq : Fore q) (hs : h.setNext p q = .ok h') :
    Ends R h' := by
  obtain ⟨c, hr, hs⟩ := bind_eq_ok.mp hs
  obtain ⟨-, hprev, htime⟩ := read_eq_ok hr
  cases hs
  refine he.put (fun _ _ _ h => h) ?_ ?_ ?_ <;> rintro _ ⟨⟩
  · exact ⟨hq, fun h => absurd hp h⟩
  · exact he.prev p _ hprev
  · exact he.stamp p _ htime

/-- Through a head only what is not a node may be stored. -/
theorem Ends.setPrev (he : Ends R h) (hp : Fore p ∨ ¬ q.IsNode) (hq : Aft q)
    (hs : h.setPrev p q = .ok h') : Ends R h' := by
  obtain ⟨c, hr, hs⟩ := bind_eq_ok.mp hs
  obtain ⟨hnext, -, htime⟩ := read_eq_ok hr
  cases hs
  refine he.put (fun _ _ _ h => h) ?_ ?_ ?_ <;> rintro _ ⟨⟩
  · exact he.next p _ hnext
  · exact ⟨hq, fun h => hp.resolve_left h⟩
  · exact he.stamp p _ htime

theorem Ends.setVal {d : NodeData} (he : Ends R h) (hR : ∀ q u, q ≠ p → R q u → R' q u)
    (hd : R' p d.m_time) (hs : h.setVal p d = .ok h') : Ends R' h' := by
  obtain ⟨c, hr, hs⟩ := bind_eq_ok.mp hs
  obtain ⟨hnext, hprev, -⟩ := read_eq_ok hr
  cases hs
  refine he.put hR ?_ ?_ ?_ <;> rintro _ ⟨⟩
  · exact he.next p _ hnext
  · exact he.prev p _ hprev
  · exact hd

/-! ### An access and what follows it -/

section
variable {β : Type} {r : β}

theorem Ends.bind_getNext {f : Ptr → Except Fault β} (he : Ends R h)
    (hs : (h.getNext p >>= f) = .ok r) :
    ∃ q, Fore q ∧ f q = .ok r := by
  obtain ⟨q, hq, hs⟩ := bind_eq_ok.mp hs
  exact ⟨q, he.fore hq, hs⟩

theorem Ends.bind_getPrev {f : Ptr → Except Fault β} (he : Ends R h)
    (hs : (h.getPrev p >>= f) = .ok r) :
    ∃ q, Aft q ∧ f q = .ok r := by
  obtain ⟨q, hq, hs⟩ := bind_eq_ok.mp hs
  exact ⟨q, he.aft hq, hs⟩

theorem Ends.bind_setNext {f : Heap Ptr NodeData → Except Fault β} (he : Ends R h) (hp : Aft p)
    (hq : Fore q) (hs : (h.setNext p q >>= f) = .ok r) : ∃ h', Ends R h' ∧ f h' = .ok r := by
  obtain ⟨h', hset, hs⟩ := bind_eq_ok.mp hs
  exact ⟨h', he.setNext hp hq hset, hs⟩

theorem Ends.bind_setPrev {f : Heap Ptr NodeData → Except Fault β} (he : Ends R h)
    (hp : Fore p ∨ ¬ q.IsNode) (hq : Aft q) (hs : (h.setPrev p q >>= f) = .ok r) :
    ∃ h', Ends R h' ∧ f h' = .ok r := by
  obtain ⟨h', hset, hs⟩ := bind_eq_ok.mp hs
  exact ⟨h', he.setPrev hp hq hset, hs⟩

end

theorem fore_tail : Fore .m_tail := ⟨by simp, by simp⟩

theorem fore_fast_tail : Fore .m_fast_tail := ⟨by simp, by simp⟩

theorem aft_head : Aft .m_head := ⟨by simp, by simp⟩

theorem aft_fast_head : Aft .m_fast_head := ⟨by simp, by simp⟩

/-! ### Pieces of surgery -/

theorem Ends.delinkChecked (he : Ends R h) (hs : FrozenHot.delinkChecked h p = .ok h') :
    Ends R h' := by
  unfold FrozenHot.delinkChecked at hs
  obtain ⟨-, -, hs⟩ := bind_eq_ok.mp hs
  obtain ⟨prev, hprev, hs⟩ := he.bind_getPrev hs
  obtain ⟨next, hnext, hs⟩ := he.bind_getNext hs
  obtain ⟨-, -, hs⟩ := bind_eq_ok.mp hs
  obtain ⟨h₁, he₁, hs⟩ := he.bind_setNext hprev hnext hs
  obtain ⟨-, -, hs⟩ := bind_eq_ok.mp hs
  obtain ⟨h₂, he₂, hs⟩ := he₁.bind_setPrev (Or.inl hnext) hprev hs
  exact he₂.setPrev (Or.inr id) ⟨by simp, by simp⟩ hs

theorem Ends.pushFront (he : Ends R h) (hp : p.IsNode) (hs : FrozenHot.pushFront h p = .ok h') :
    Ends R h' := by
  unfold FrozenHot.pushFront at hs
  obtain ⟨old, hold, hs⟩ := he.bind_getNext hs
  obtain ⟨h₁, he₁, hs⟩ := he.bind_setPrev (Or.inr id) aft_head hs
  obtain ⟨h₂, he₂, hs⟩ := he₁.bind_setNext (.of_isNode hp) hold hs
  obtain ⟨h₃, he₃, hs⟩ := he₂.bind_setPrev (Or.inl hold) (.of_isNode hp) hs
  exact he₃.setNext aft_head (.of_isNode hp) hs

theorem Ends.pushAfter (he : Ends R h) (hp : p.IsNode) (hq : q.IsNode)
    (hs : FrozenHot.pushAfter h p q = .ok h') :
    Ends R h' := by
  unfold FrozenHot.pushAfter at hs
  obtain ⟨-, -, hs⟩ := bind_eq_ok.mp hs
  obtain ⟨h₁, he₁, hs⟩ := he.bind_setPrev (Or.inl (.of_isNode hq)) (.of_isNode hp) hs
  obtain ⟨-, -, hs⟩ := bind_eq_ok.mp hs
  obtain ⟨next, hnext, hs⟩ := he₁.bind_getNext hs
  obtain ⟨h₂, he₂, hs⟩ := he₁.bind_setNext (.of_isNode hq) hnext hs
  obtain ⟨h₃, he₃, hs⟩ := he₂.bind_setPrev (Or.inl hnext) (.of_isNode hq) hs
  exact he₃.setNext (.of_isNode hp) (.of_isNode hq) hs

theorem Ends.promote (he : Ends R h) (hp : p.IsNode) (hs : Shard.promote h p = .ok h') :
    Ends R h' := by
  unfold Shard.promote at hs
  obtain ⟨b, -, hs⟩ := bind_eq_ok.mp hs
  split at hs
  · obtain ⟨h₁, h1, hs⟩ := bind_eq_ok.mp hs
    exact (he.delinkChecked h1).pushFront hp hs
  · cases hs
    exact he

theorem Ends.setTomb (he : Ends R h) (hs : Shard.setTomb h p = .ok h') : Ends R h' := by
  obtain ⟨d, hd, hs⟩ := bind_eq_ok.mp hs
  refine he.setVal (fun _ _ _ h => h) (he.stamp p _ ?_) hs
  unfold Heap.getVal at hd
  obtain ⟨c, hr, hd⟩ := bind_eq_ok.mp hd
  cases hd
  exact (read_eq_ok hr).2.2

theorem Ends.discard (he : Ends R h) (hs : Shard.discard h p = .ok h') : Ends R h' := by
  unfold Shard.discard at hs
  obtain ⟨b, -, hs⟩ := bind_eq_ok.mp hs
  dsimp only at hs
  split at hs
  · obtain ⟨h₁, h1, hs⟩ := bind_eq_ok.mp hs
    cases hs
    exact (he.delinkChecked h1).free p
  · cases hs
    exact he.free p

theorem Ends.spliceAll (he : Ends R h) (hs : Shard.spliceAll h = .ok h') : Ends R h' := by
  unfold Shard.spliceAll at hs
  obtain ⟨a, ha, hs⟩ := he.bind_getNext hs
  obtain ⟨h₁, he₁, hs⟩ := he.bind_setNext aft_fast_head ha hs
  obtain ⟨b, hb, hs⟩ := he₁.bind_getNext hs
  obtain ⟨h₂, he₂, hs⟩ := he₁.bind_setPrev (Or.inl hb) aft_fast_head hs
  obtain ⟨c, hc, hs⟩ := he₂.bind_getPrev hs
  obtain ⟨h₃, he₃, hs⟩ := he₂.bind_setPrev (Or.inl fore_fast_tail) hc hs
  obtain ⟨d, hd, hs⟩ := he₃.bind_getPrev hs
  obtain ⟨h₄, he₄, hs⟩ := he₃.bind_setNext hd fore_fast_tail hs
  obtain ⟨h₅, he₅, hs⟩ := he₄.bind_setNext aft_head fore_tail hs
  exact he₅.setPrev (Or.inl fore_tail) aft_head hs

theorem Ends.cutCount (he : Ends R h) (hp : Fore p) (hs : Shard.cutCount h p = .ok h') :
    Ends R h' := by
  unfold Shard.cutCount at hs
  obtain ⟨a, ha, hs⟩ := he.bind_getNext hs
  obtain ⟨nodeBefore, hbefore, hs⟩ := he.bind_getPrev hs
  obtain ⟨b, hb, hs⟩ := he.bind_getPrev hs
  obtain ⟨h₁, he₁, hs⟩ := he.bind_setPrev (Or.inl fore_fast_tail) hb hs
  obtain ⟨c, hc, hs⟩ := he₁.bind_getPrev hs
  obtain ⟨h₂, he₂, hs⟩ := he₁.bind_setNext hc fore_fast_tail hs
  obtain ⟨d, hd, hs⟩ := he₂.bind_getNext hs
  obtain ⟨h₃, he₃, hs⟩ := he₂.bind_setPrev (Or.inl hd) aft_fast_head hs
  obtain ⟨h₄, he₄, hs⟩ := he₃.bind_setNext hbefore hp hs
  exact he₄.setPrev (Or.inl hp) hbefore hs

theorem Ends.cutEvictions (he : Ends R h) (hs : Shard.cutEvictions h = .ok h') : Ends R h' := by
  unfold Shard.cutEvictions at hs
  obtain ⟨node, hnode, hs⟩ := he.bind_getNext hs
  obtain ⟨a, ha, hs⟩ := he.bind_getPrev hs
  obtain ⟨h₁, he₁, hs⟩ := he.bind_setPrev (Or.inl fore_fast_tail) ha hs
  obtain ⟨b, hb, hs⟩ := he₁.bind_getPrev hs
  obtain ⟨h₂, he₂, hs⟩ := he₁.bind_setNext hb fore_fast_tail hs
  obtain ⟨c, hc, hs⟩ := he₂.bind_getPrev hs
  obtain ⟨h₃, he₃, hs⟩ := he₂.bind_setPrev (Or.inl fore_tail) hc hs
  obtain ⟨d, hd, hs⟩ := he₃.bind_getPrev hs
  obtain ⟨h₄, he₄, hs⟩ := he₃.bind_setNext hd fore_tail hs
  exact he₄.setPrev (Or.inl hnode) aft_fast_head hs

theorem Ends.thawSplice (he : Ends R h) (hs : Shard.thawSplice h = .ok h') : Ends R h' := by
  unfold Shard.thawSplice at hs
  obtain ⟨node, hnode, hs⟩ := he.bind_getNext hs
  obtain ⟨a, ha, hs⟩ := he.bind_getNext hs
  obtain ⟨h₁, he₁, hs⟩ := he.bind_setPrev (Or.inl ha) aft_head hs
  obtain ⟨b, hb, hs⟩ := he₁.bind_getPrev hs
  obtain ⟨h₂, he₂, hs⟩ := he₁.bind_setNext hb hnode hs
  obtain ⟨c, hc, hs⟩ := he₂.bind_getNext hs
  obtain ⟨h₃, he₃, hs⟩ := he₂.bind_setNext aft_head hc hs
  obtain ⟨d, hd, hs⟩ := he₃.bind_getPrev hs
  obtain ⟨h₄, he₄, hs⟩ := he₃.bind_setPrev (Or.inl hnode) hd hs
  obtain ⟨h₅, he₅, hs⟩ := he₄.bind_setNext aft_fast_head fore_fast_tail hs
  exact he₅.setPrev (Or.inl fore_fast_tail) aft_fast_head hs

/-! ### Calls -/

theorem Ends.dropTombs {fuel : ℕ} {r : Ptr × Heap Ptr NodeData} (he : Ends R h)
    (hs : Shard.dropTombs fuel h = .ok r) :
    Ends R r.2 := by
  induction fuel generalizing h with
  | zero => cases hs
  | succ fuel ih =>
    unfold Shard.dropTombs at hs
    obtain ⟨m, -, hs⟩ := bind_eq_ok.mp hs
    obtain ⟨k, -, hs⟩ := bind_eq_ok.mp hs
    split at hs
    · obtain ⟨h₁, h1, hs⟩ := bind_eq_ok.mp hs
      exact ih ((he.delinkChecked h1).free m) hs
    · cases hs
      exact he

theorem Ends.evict {held : Option ℕ} {r : Bool × Shard α} (he : Ends R σ.heap)
    (hs : σ.evict held = .ok r) :
    Ends R r.2.heap ∧ r.2.curve_flag = σ.curve_flag := by
  unfold Shard.evict at hs
  obtain ⟨d, hd, hs⟩ := bind_eq_ok.mp hs
  have he₁ := he.dropTombs hd
  split at hs
  · cases hs
    exact ⟨he₁, rfl⟩
  · obtain ⟨h₂, h2, hs⟩ := bind_eq_ok.mp hs
    have he₂ := he₁.delinkChecked h2
    obtain ⟨k, -, hs⟩ := bind_eq_ok.mp hs
    split at hs
    · cases hs
      exact ⟨he₂, rfl⟩
    · split at hs
      · cases hs
      · cases hs
        exact ⟨he₂.free d.1, rfl⟩

theorem Ends.insertSettle {s : ℕ} {d : Bool} (he : Ends R σ.heap)
    (hs : σ.insertSettle s d = .ok σ') :
    Ends R σ'.heap ∧ σ'.curve_flag = σ.curve_flag := by
  have hcount : (σ.count d).heap = σ.heap ∧ (σ.count d).curve_flag = σ.curve_flag := by
    unfold count
    split <;> exact ⟨rfl, rfl⟩
  rw [← hcount.1] at he
  rw [← hcount.2]
  unfold Shard.insertSettle Shard.correct at hs
  by_cases hover : (if d = true then s else σ.m_size) > (σ.count d).m_maxSize
  · rw [if_pos hover] at hs
    obtain ⟨r, hr, hs⟩ := bind_eq_ok.mp hs
    have := he.evict hr
    cases hs
    dsimp only
    split <;> exact this
  · rw [if_neg hover] at hs
    cases hs
    exact ⟨he, rfl⟩

theorem Ends.newNode (he : Ends R σ.heap) (hR : ∀ q u, q ≠ .node σ.fresh → R q u → R' q u)
    (hnew : R' (.node σ.fresh) σ.clock) (k : ℕ) : Ends R' (σ.newNode k).heap := by
  refine he.put hR ?_ ?_ ?_ <;> rintro _ ⟨⟩
  · exact ⟨⟨by simp, by simp⟩, fun _ => id⟩
  · exact ⟨⟨by simp, by simp⟩, fun _ => id⟩
  · exact hnew

theorem insertMap_keeps (σ : Shard α) (k : ℕ) (v : Option α) (n : Ptr) :
    (insertMap σ k v n).2.heap = σ.heap ∧ (insertMap σ k v n).2.curve_flag = σ.curve_flag := by
  unfold insertMap
  split
  · exact ⟨rfl, rfl⟩
  · dsimp only
    split <;> exact ⟨rfl, rfl⟩

theorem Ends.insertEvict {k : ℕ} {r : (ℕ × Bool) × Shard α} (he : Ends R σ.heap)
    (hs : σ.insertEvict k = .ok r) :
    Ends R r.2.heap ∧ r.2.curve_flag = σ.curve_flag := by
  unfold Shard.insertEvict at hs
  split at hs
  · obtain ⟨e, h1, hs⟩ := bind_eq_ok.mp hs
    cases hs
    exact he.evict h1
  · cases hs
    exact ⟨he, rfl⟩

/-- The link of a new node, no curve being taken. -/
theorem Ends.insertLink {k : ℕ} {r : Bool × Shard α} (he : Ends R σ.heap)
    (hcur : σ.curve_flag = false) (hp : p.IsNode) (hs : σ.insertLink k p = .ok r) :
    Ends R r.2.heap := by
  unfold Shard.insertLink at hs
  rw [hcur] at hs
  split at hs
  · cases hs
    exact he.free p
  · obtain ⟨h₁, h1, hs⟩ := bind_eq_ok.mp hs
    cases hs
    exact he.pushFront hp h1

theorem Ends.insert {k : ℕ} {v : Option α} {r : Bool × Shard α} (he : Ends R σ.heap)
    (hcur : σ.curve_flag = false) (hnew : σ.tier_no_insert = false → R (.node σ.fresh) σ.clock)
    (hs : σ.insert k v = .ok r) : Ends R r.2.heap := by
  obtain ⟨hheap, hflag⟩ := insertMap_keeps (σ.newNode k) k v (.node σ.fresh)
  unfold Shard.insert at hs
  split at hs
  · cases hs
    exact he
  · rename_i hno
    have he₁ : Ends R (insertMap (σ.newNode k) k v (.node σ.fresh)).2.heap :=
      hheap ▸ he.newNode (fun _ _ _ h => h) (hnew (by simpa using hno)) k
    dsimp only at hs
    split at hs
    · cases hs
      exact he₁
    · obtain ⟨e, h2, hs⟩ := bind_eq_ok.mp hs
      obtain ⟨he₂, hcur₂⟩ := he₁.insertEvict h2
      obtain ⟨l, h3, hs⟩ := bind_eq_ok.mp hs
      have he₃ := he₂.insertLink (hcur₂.trans (hflag.trans hcur)) (isNode_iff.mpr ⟨_, rfl⟩) h3
      split at hs
      · cases hs
        exact he₃
      · obtain ⟨σ₄, h4, hs⟩ := bind_eq_ok.mp hs
        cases hs
        exact (he₃.insertSettle h4).1

/-- `find` outside of curve mode. -/
theorem Ends.find {lock : Bool} {k : ℕ} {r : Option (Option α) × Shard α} (he : Ends R σ.heap)
    (hcur : σ.curve_flag = false) (hnode : ∀ k e, σ.m_map.lookup k = some e → e.m_listNode.IsNode)
    (hs : σ.findWith lock k = .ok r) : Ends R r.2.heap := by
  have hslow : σ.findSlow lock k = .ok r → Ends R r.2.heap := by
    intro hs
    unfold findSlow at hs
    rw [hcur] at hs
    split at hs
    · cases hs
      exact he
    · rename_i e hl
      split at hs
      · cases hs
        exact he
      · split at hs
        · cases ‹false = true›
        · split at hs
          · obtain ⟨h₁, h1, hs⟩ := bind_eq_ok.mp hs
            cases hs
            exact he.promote (hnode k e hl) h1
          · cases hs
            exact he
  unfold findWith at hs
  obtain ⟨-, -, hs⟩ := bind_eq_ok.mp hs
  split at hs
  · split at hs
    · cases hs
      exact he
    · split at hs
      · cases hs
        exact he
      · exact hslow hs
  · exact hslow hs

theorem Ends.delete_key {k : ℕ} (he : Ends R σ.heap) (hs : σ.delete_key k = .ok σ') :
    Ends R σ'.heap := by
  unfold Shard.delete_key at hs
  split at hs
  · cases hs
    exact he
  · dsimp only at hs
    split at hs
    · obtain ⟨h₁, h1, hs⟩ := bind_eq_ok.mp hs
      cases hs
      exact he.setTomb h1
    · split at hs
      · obtain ⟨h₁, h1, hs⟩ := bind_eq_ok.mp hs
        cases hs
        exact he.setTomb h1
      · obtain ⟨b, -, hs⟩ := bind_eq_ok.mp hs
        split at hs
        · obtain ⟨h₁, h1, hs⟩ := bind_eq_ok.mp hs
          cases hs
          exact (he.delinkChecked h1).free _
        · cases hs
          exact he

theorem Ends.tierFill {fuel : ℕ} (he : Ends R σ.heap) (hs : Shard.tierFill fuel σ p = .ok σ') :
    Ends R σ'.heap := by
  induction fuel generalizing σ p with
  | zero => cases hs
  | succ fuel ih =>
    unfold Shard.tierFill at hs
    split at hs
    · cases hs
      exact he
    · obtain ⟨k, -, hs⟩ := bind_eq_ok.mp hs
      obtain ⟨n, -, hs⟩ := bind_eq_ok.mp hs
      split at hs
      · obtain ⟨h₁, h1, hs⟩ := bind_eq_ok.mp hs
        exact ih ((he.delinkChecked h1).free p) hs
      · split at hs
        · obtain ⟨h₁, h1, hs⟩ := bind_eq_ok.mp hs
          exact ih (he.discard h1) hs
        · refine ih ?_ hs
          exact he

theorem Ends.construct_tier (he : Ends R σ.heap) (hs : σ.construct_tier = .ok σ') :
    Ends R σ'.heap := by
  obtain ⟨σ₁, h1, hs⟩ := bind_eq_ok.mp hs
  have he₁ : Ends R σ₁.heap := by
    obtain ⟨-, -, h1⟩ := bind_eq_ok.mp h1
    obtain ⟨h₁, h2, h1⟩ := bind_eq_ok.mp h1
    cases h1
    exact he.spliceAll h2
  obtain ⟨p, -, hs⟩ := bind_eq_ok.mp hs
  obtain ⟨σ₂, h2, hs⟩ := bind_eq_ok.mp hs
  have he₂ := he₁.tierFill h2
  cases hs
  exact he₂

/-- An iteration of the scan; it stands at a pointer read from an `m_next`. -/
theorem Ends.scanStep {FC_size DC_size : ℕ} {l : Scan} {r : Shard α × Scan} (he : Ends R σ.heap)
    (hs : Shard.scanStep FC_size DC_size σ l = .ok r) : Ends R r.1.heap := by
  unfold Shard.scanStep at hs
  dsimp only at hs
  obtain ⟨k, -, hs⟩ := bind_eq_ok.mp hs
  obtain ⟨n, hn, hs⟩ := he.bind_getNext hs
  split at hs
  · obtain ⟨h₁, h1, hs⟩ := bind_eq_ok.mp hs
    cases hs
    exact he.discard h1
  · split at hs
    · obtain ⟨h₁, h1, hs⟩ := bind_eq_ok.mp hs
      cases hs
      exact he.cutCount hn h1
    · split at hs
      · obtain ⟨h₁, h1, hs⟩ := bind_eq_ok.mp hs
        cases hs
        exact he.cutEvictions h1
      · cases hs
        exact he

theorem Ends.scan {FC_size DC_size fuel : ℕ} {l : Scan} (he : Ends R σ.heap)
    (hs : Shard.scan FC_size DC_size fuel σ l = .ok σ') : Ends R σ'.heap := by
  induction fuel generalizing σ l with
  | zero => cases hs
  | succ fuel ih =>
    unfold Shard.scan at hs
    split at hs
    · cases hs
      exact he
    · obtain ⟨r, hr, hs⟩ := bind_eq_ok.mp hs
      exact ih (he.scanStep hr) hs

theorem Ends.construct_ratio {FC_size : ℕ} (he : Ends R σ.heap)
    (hs : σ.construct_ratio FC_size = .ok σ') :
    Ends R σ'.heap := by
  obtain ⟨r, h1, hs⟩ := bind_eq_ok.mp hs
  have he₁ : Ends R r.1.heap := by
    obtain ⟨-, -, h1⟩ := bind_eq_ok.mp h1
    obtain ⟨-, -, h1⟩ := bind_eq_ok.mp h1
    obtain ⟨a, ha, h1⟩ := he.bind_getNext h1
    obtain ⟨h₁, he₁, h1⟩ := he.bind_setNext aft_fast_head ha h1
    obtain ⟨b, -, h1⟩ := bind_eq_ok.mp h1
    cases h1
    exact he₁
  obtain ⟨σ₂, h2, hs⟩ := bind_eq_ok.mp hs
  have he₂ := he₁.scan h2
  cases hs
  exact he₂

theorem Ends.deconstruct (he : Ends R σ.heap) (hs : σ.deconstruct = .ok σ') : Ends R σ'.heap := by
  unfold Shard.deconstruct at hs
  obtain ⟨a, -, hs⟩ := bind_eq_ok.mp hs
  obtain ⟨b, -, hs⟩ := bind_eq_ok.mp hs
  obtain ⟨-, -, hs⟩ := bind_eq_ok.mp hs
  split at hs
  · cases hs
    exact he
  · obtain ⟨h₁, h1, hs⟩ := bind_eq_ok.mp hs
    cases hs
    exact he.thawSplice h1

/-- Nodes are stamped before the time `n`. -/
def Before (n : ℕ) (p : Ptr) (u : ℕ) : Prop := p.IsNode → u < n

theorem Ends.later {m n : ℕ} (he : Ends (Before m) h) (hmn : m ≤ n) : Ends (Before n) h :=
  he.mono fun _ _ hb hp => (hb hp).trans_le hmn

theorem Ends.init (n : ℕ) : Ends (Before 0) (init n : Shard α).heap := by
  have hempty : Ends (Before 0) (Heap.empty : Heap Ptr NodeData) :=
    ⟨by simp [Heap.next, Heap.empty], by simp [Heap.prev, Heap.empty], by
      simp [timeAt, Heap.val, Heap.empty]⟩
  have hid : ∀ p q u, q ≠ p → Before 0 q u → Before 0 q u := fun _ _ _ _ h => h
  refine (((hempty.put (hid _) ?_ ?_ ?_).put (hid _) ?_ ?_ ?_).put (hid _) ?_ ?_ ?_).put
    (hid _) ?_ ?_ ?_ <;>
  · rintro _ ⟨⟩
    simp [Fore, Aft, Before, Ptr.IsNode]

end FrozenHot.Shard
