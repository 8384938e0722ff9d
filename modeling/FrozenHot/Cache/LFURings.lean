import FrozenHot.Cache.LFU

/-! The classes of an LFU cache in its two heaps.

    A class is seen as its node, its frequency and the nodes of its ring with their keys. `Rings`
    says what the rings hold, `ClassLists` which classes follow one another from `m_head` to
    `m_tail` and, in a cache that can freeze, from `m_fast_head` to `m_fast_tail`. Each step of the
    code on one of the heaps has one lemma. -/

namespace FrozenHot
open Schemes

/-- A class: the address of its `ListNode`, its frequency, and its ring with the keys. -/
structure FreClass where
  node : Ptr
  fre : ℤ
  ring : List (FrePtr × ℕ)
  deriving DecidableEq

def FreClass.ptrs (c : FreClass) : List FrePtr := c.ring.map Prod.fst

def FreClass.keys (c : FreClass) : List ℕ := c.ring.map Prod.snd

/-- A pointer that `new freListNode` returns. -/
def FrePtr.IsNode : FrePtr → Prop
  | .node _ => True
  | _ => False

theorem FrePtr.IsNode.ne_list {p : FrePtr} (hp : p.IsNode) (c : Ptr) : p ≠ .list c :=
  by rintro rfl; exact hp

theorem FrePtr.IsNode.ne_null {p : FrePtr} (hp : p.IsNode) : p ≠ .null := by rintro rfl; exact hp

/-! ### The operations on one list -/

section Delink
variable {P D : Type} [DecidableEq P] {h : Heap P D} {null a b n : P} {A B : List P}

theorem delinkNode_eq {p q : P} (hp : h.prev n = some p) (hq : h.next n = some q) (hpl : h.Live p)
    (hql : h.Live q) (hn0 : n ≠ null) (hp0 : p ≠ null) (hq0 : q ≠ null) :
    delinkNode null h n = .ok (h.detach null p n q) := by
  have hn := Heap.live_of_prev hp
  simp [delinkNode, Heap.getPrev_eq hp, Heap.getNext_eq hq, Heap.setNext_eq, Heap.setPrev_eq, hpl,
    hql, hn, Heap.detach, Heap.relink, hn0, hp0, hq0]

/-- The assertions of `delink` hold on a list without null pointers. -/
theorem delinkNode_seg (hs : h.Seg a (A ++ n :: B) b) (h0 : null ∉ a :: (A ++ n :: B ++ [b])) :
    delinkNode null h n = .ok (h.detach null (A.getLastD a) n (B.headD b)) := by
  have hp := List.getLastD_mem_cons (l := A) (a := a)
  have hq := headD_mem B b
  have hlast : A.getLastD a ∈ a :: (A ++ n :: B ++ [b]) := by
    simp only [List.mem_cons, List.mem_append] at hp ⊢; tauto
  have hfirst : B.headD b ∈ a :: (A ++ n :: B ++ [b]) := by
    simp only [List.mem_cons, List.mem_append] at hq ⊢; tauto
  refine delinkNode_eq hs.prev_mid hs.next_mid hs.live_getLastD hs.live_next_mid ?_ ?_ ?_
  · rintro rfl; exact h0 (by simp)
  · intro he; exact h0 (he ▸ hlast)
  · intro he; exact h0 (he ▸ hfirst)

end Delink

/-! ### The rings -/

/-- The `list` of the sentinel `m_tail` is as the default constructor left it. -/
structure TailRing (h : Heap FrePtr ℕ) : Prop where
  next : h.next (.list .m_tail) = some .null
  null : ¬ h.Live .null

/-- The rings of the classes `C`, which share no node. -/
structure Rings (h : Heap FrePtr ℕ) (C : List FreClass) : Prop where
  nodes : (C.map FreClass.node).Nodup
  ring : ∀ c ∈ C, h.Ring (.list c.node) c.ptrs
  key : ∀ c ∈ C, ∀ x ∈ c.ring, h.val x.1 = some x.2
  ptrs : (C.flatMap FreClass.ptrs).Nodup
  isNode : ∀ c ∈ C, ∀ p ∈ c.ptrs, p.IsNode
  class_ne : ∀ c ∈ C, c.node ≠ .m_tail
  tail : TailRing h

variable {h : Heap FrePtr ℕ} {C C' : List FreClass} {c : FreClass} {x : FrePtr × ℕ}
    {R R' : List (FrePtr × ℕ)}
variable {p : FrePtr} {a : Ptr} {f g : ℤ} {k : ℕ}

theorem TailRing.frame {h' : Heap FrePtr ℕ} {N : List FrePtr} (ht : TailRing h)
    (hf : Heap.Frame N N h h') (hN : FrePtr.list .m_tail ∉ N) : TailRing h' :=
  ⟨by rw [hf.next _ hN]; exact ht.next, fun hl => ht.null (hf.live.mp hl)⟩

theorem TailRing.put (ht : TailRing h) (hp : p ≠ .list .m_tail) (hp0 : p ≠ .null)
    (o : Option (Cell FrePtr ℕ)) :
    TailRing (h.put p o) := by
  refine ⟨by rw [Heap.next_put, if_neg hp.symm]; exact ht.next, fun hl => ht.null ?_⟩
  rwa [Heap.live_put, if_neg hp0.symm] at hl

theorem Rings.perm (hr : Rings h C) (hp : C.Perm C') : Rings h C' :=
  ⟨(hp.map _).nodup_iff.mp hr.nodes, fun c hc => hr.ring c (hp.mem_iff.mpr hc),
    fun c hc => hr.key c (hp.mem_iff.mpr hc), (hp.flatMap_right _).nodup_iff.mp hr.ptrs,
    fun c hc => hr.isNode c (hp.mem_iff.mpr hc), fun c hc => hr.class_ne c (hp.mem_iff.mpr hc),
    hr.tail⟩

/-- Only nodes and rings matter. -/
theorem Rings.congr (hr : Rings h C)
    (he : C'.map (fun c => (c.node, c.ring)) = C.map fun c => (c.node, c.ring)) :
    Rings h C' := by
  have hmem : ∀ c ∈ C', ∃ d ∈ C, d.node = c.node ∧ d.ring = c.ring := by
    intro c hc
    have hm : (c.node, c.ring) ∈ C.map fun c => (c.node, c.ring) := by
      rw [← he]
      exact List.mem_map_of_mem (f := fun c : FreClass => (c.node, c.ring)) hc
    obtain ⟨d, hd, heq⟩ := List.mem_map.mp hm
    exact ⟨d, hd, Prod.mk.inj heq⟩
  have hn : C'.map FreClass.node = C.map FreClass.node := by
    have := congrArg (List.map Prod.fst) he
    rwa [List.map_map, List.map_map] at this
  have hp : C'.flatMap FreClass.ptrs = C.flatMap FreClass.ptrs := by
    have := congrArg (List.flatMap fun x : Ptr × List (FrePtr × ℕ) => x.2.map Prod.fst) he
    rwa [List.flatMap_map, List.flatMap_map] at this
  refine ⟨hn ▸ hr.nodes, fun c hc => ?_, fun c hc x hx => ?_, hp ▸ hr.ptrs, fun c hc q hq => ?_,
    fun c hc => ?_, hr.tail⟩
  · obtain ⟨d, hd, h1, h2⟩ := hmem c hc
    rw [FreClass.ptrs, ← h1, ← h2]
    exact hr.ring d hd
  · obtain ⟨d, hd, -, h2⟩ := hmem c hc
    exact hr.key d hd x (h2 ▸ hx)
  · obtain ⟨d, hd, -, h2⟩ := hmem c hc
    rw [FreClass.ptrs, ← h2] at hq
    exact hr.isNode d hd q hq
  · obtain ⟨d, hd, h1, -⟩ := hmem c hc
    rw [← h1]
    exact hr.class_ne d hd

/-- The pointers of a ring are not those of another. -/
theorem Rings.disjoint (hr : Rings h (c :: C)) {d : FreClass} (hd : d ∈ C) :
    (.list d.node :: d.ptrs).Disjoint (.list c.node :: c.ptrs) := by
  intro z hz hz'
  have hne : d.node ≠ c.node := fun he =>
    (List.nodup_cons.mp hr.nodes).1 (he ▸ List.mem_map_of_mem hd)
  rw [List.mem_cons] at hz hz'
  rcases hz with rfl | hz
  · rcases hz' with he | hz'
    · exact hne (FrePtr.list.inj he)
    · exact (hr.isNode c (by simp) _ hz').ne_list _ rfl
  · rcases hz' with rfl | hz'
    · exact (hr.isNode d (by simp [hd]) _ hz).ne_list _ rfl
    · have := hr.ptrs
      rw [List.flatMap_cons, List.nodup_append'] at this
      exact this.2.2 hz' (List.mem_flatMap.mpr ⟨d, hd, hz⟩)

/-- A change inside one ring. -/
theorem Rings.update {h' : Heap FrePtr ℕ} {N : List FrePtr} (hr : Rings h (⟨a, f, R⟩ :: C))
    (hring : h'.Ring (.list a) (R'.map Prod.fst)) (hf : Heap.Frame N N h h')
    (hN : ∀ d ∈ C, (.list d.node :: d.ptrs).Disjoint N) (hkey : ∀ x ∈ R', h.val x.1 = some x.2)
    (hnode : ∀ x ∈ R', x.1.IsNode) (hnew : ∀ d ∈ C, ∀ x ∈ R', x.1 ∉ d.ptrs)
    (htail : FrePtr.list .m_tail ∉ N) :
    Rings h' (⟨a, g, R'⟩ :: C) := by
  refine ⟨hr.nodes, ?_, ?_, ?_, ?_, ?_, hr.tail.frame hf htail⟩
  · exact List.forall_mem_cons.mpr ⟨hring, fun d hd => (hr.ring d (by simp [hd])).frame hf
      (hN d hd) (hN d hd)⟩
  · refine List.forall_mem_cons.mpr ⟨fun x hx => by rw [hf.val]; exact hkey x hx,
      fun d hd x hx => ?_⟩
    rw [hf.val]
    exact hr.key d (by simp [hd]) x hx
  · have := hr.ptrs
    rw [List.flatMap_cons, List.nodup_append'] at this ⊢
    refine ⟨(List.nodup_cons.mp hring.nodup).2, this.2.1, fun z hz hz' => ?_⟩
    obtain ⟨x, hx, rfl⟩ := List.mem_map.mp hz
    obtain ⟨d, hd, hz'⟩ := List.mem_flatMap.mp hz'
    exact hnew d hd x hx hz'
  · refine List.forall_mem_cons.mpr ⟨fun q hq => ?_, fun d hd => hr.isNode d (by simp [hd])⟩
    obtain ⟨x, hx, rfl⟩ := List.mem_map.mp hq
    exact hnode x hx
  · exact List.forall_mem_cons.mpr ⟨hr.class_ne ⟨a, f, R⟩ (by simp),
      fun d hd => hr.class_ne d (by simp [hd])⟩

/-- The sentinel of `m_tail` is in no ring. -/
theorem Rings.tail_notMem (hr : Rings h C) (hc : c ∈ C) :
    FrePtr.list .m_tail ∉ FrePtr.list c.node :: c.ptrs := by
  intro hm
  rcases List.mem_cons.mp hm with he | hm
  · exact hr.class_ne c hc (FrePtr.list.inj he).symm
  · exact (hr.isNode c hc _ hm).ne_list _ rfl

/-- `delink` takes a node out of its ring. -/
theorem Rings.take (hr : Rings h (⟨a, f, R ++ x :: R'⟩ :: C)) :
    ∃ h', delinkNode .null h x.1 = .ok h' ∧ Rings h' (⟨a, f, R ++ R'⟩ :: C) ∧
      (∀ q, h'.val q = h.val q) ∧
      h.val x.1 = some x.2 ∧ x.1.IsNode ∧ x.1 ∉ (⟨a, f, R ++ R'⟩ :: C : List FreClass).flatMap
      FreClass.ptrs := by
  have hring := hr.ring _ List.mem_cons_self
  have hnode := hr.isNode _ List.mem_cons_self
  have hptrs : (⟨a, f, R ++ x :: R'⟩ : FreClass).ptrs = R.map Prod.fst ++ x.1 :: R'.map
      Prod.fst := by
    simp [FreClass.ptrs]
  rw [hptrs] at hring hnode
  have h0 : FrePtr.null ∉ FrePtr.list
      a :: (R.map Prod.fst ++ x.1 :: R'.map Prod.fst ++ [.list a]) := by
    intro hc
    rw [List.mem_cons, List.mem_append, List.mem_singleton] at hc
    rcases hc with hc | hc | hc
    · cases hc
    · exact (hnode _ hc).ne_null rfl
    · cases hc
  obtain ⟨hdet, hf⟩ := hring.detach .null
  have hmem : ∀ y ∈ R ++ R', y ∈ R ++ x :: R' := fun y hy => by
    simp only [List.mem_append, List.mem_cons] at hy ⊢; tauto
  have hN : ∀ z, z ∈ FrePtr.list a :: (R.map Prod.fst ++ x.1 :: R'.map Prod.fst) ∨
      z ∈ R.map Prod.fst ++ x.1 :: R'.map Prod.fst ++ [.list a] →
      z ∈ FrePtr.list a :: (⟨a, f, R ++ x :: R'⟩ : FreClass).ptrs := by
    intro z hz
    rw [hptrs]
    simp only [List.mem_cons, List.mem_append] at hz ⊢
    tauto
  refine ⟨_, delinkNode_seg hring.seg h0, ?_, hf.val, hr.key _ List.mem_cons_self x (by simp),
    hnode _ (by simp), ?_⟩
  · refine hr.update (N := FrePtr.list a :: (⟨a, f, R ++ x :: R'⟩ : FreClass).ptrs) ?_
      ⟨hf.val, fun z hz => hf.next z (fun hc => hz (hN z (Or.inl hc))),
        fun z hz => hf.prev z (fun hc => hz (hN z (Or.inr hc)))⟩
      (fun d hd => hr.disjoint hd) (fun y hy => hr.key _ List.mem_cons_self y (hmem y hy))
      (fun y hy => hr.isNode _ List.mem_cons_self _ (List.mem_map_of_mem (hmem y hy)))
      (fun d hd y hy hc => hr.disjoint hd (List.mem_cons_of_mem _ hc)
        (List.mem_cons_of_mem _ (List.mem_map_of_mem (hmem y hy))))
        (hr.tail_notMem List.mem_cons_self)
    rw [List.map_append]
    exact hdet
  · have := hr.ptrs
    rw [List.flatMap_cons, hptrs, List.append_assoc, List.cons_append, List.nodup_middle,
      List.nodup_cons] at this
    rw [List.flatMap_cons]
    simpa [FreClass.ptrs] using this.1

theorem ringPushFront_eq {q : FrePtr} (hq : h.next (.list a) = some q) (hql : h.Live q)
    (hn : h.Live p) (hne : p ≠ .list a) :
    ringPushFront h a p = .ok ((h.relink (.list a) p).relink p q) := by
  have hh := Heap.live_of_next hq
  simp only [ringPushFront, Heap.getNext_eq hq, Heap.setNext_eq, Heap.setPrev_eq, hql, hn, hh,
    ok_bind, Heap.live_withNext, Heap.live_withPrev]
  congr 1
  refine Heap.ext_obs (fun x => ?_) (fun x => ?_) (fun x => by simp)
  · simp only [Heap.next_withNext, Heap.next_withPrev, Heap.next_relink, Heap.live_withNext,
      Heap.live_withPrev, Heap.live_relink, hh, hn]
    split <;> split <;> simp_all
  · simp only [Heap.prev_withPrev, Heap.prev_withNext, Heap.prev_relink, Heap.live_withNext,
      Heap.live_withPrev, Heap.live_relink, hn, hql]

/-- `pushFront` puts a node that is in no ring into a ring. -/
theorem Rings.push (hr : Rings h (⟨a, f, R⟩ :: C)) (hv : h.val p = some k) (hp : p.IsNode)
    (hnew : p ∉ (⟨a, f, R⟩ :: C : List FreClass).flatMap FreClass.ptrs) :
    ∃ h', ringPushFront h a p = .ok h' ∧ Rings h' (⟨a, f, (p, k) :: R⟩ :: C) ∧
    ∀ q, h'.val q = h.val q := by
  have hring := hr.ring _ List.mem_cons_self
  have hnew' : p ∉ (⟨a, f, R⟩ : FreClass).ptrs ∧ ∀ d ∈ C, p ∉ d.ptrs := by
    rw [List.flatMap_cons, List.mem_append, not_or] at hnew
    exact ⟨hnew.1, fun d hd hc => hnew.2 (List.mem_flatMap.mpr ⟨d, hd, hc⟩)⟩
  have hpn : p ∉ FrePtr.list a :: (⟨a, f, R⟩ : FreClass).ptrs := by
    rw [List.mem_cons, not_or]
    exact ⟨hp.ne_list a, hnew'.1⟩
  obtain ⟨hpush, hf⟩ := hring.pushFront (Heap.live_of_val hv) hpn
  refine ⟨_, ringPushFront_eq hring.seg.next_first (Heap.Seg.live_headD (A := []) hring.seg)
    (Heap.live_of_val hv) (hp.ne_list a), ?_, hf.val⟩
  have hN : ∀ z, z ∈ FrePtr.list a :: p :: (⟨a, f, R⟩ : FreClass).ptrs ∨
      z ∈ p :: (⟨a, f, R⟩ : FreClass).ptrs ++ [.list a] →
      z ∈ p :: FrePtr.list a :: (⟨a, f, R⟩ : FreClass).ptrs := by
    intro z hz
    simp only [List.mem_cons, List.mem_append] at hz ⊢
    tauto
  refine hr.update (N := p :: FrePtr.list a :: (⟨a, f, R⟩ : FreClass).ptrs) hpush
    ⟨hf.val, fun z hz => hf.next z (fun hc => hz (hN z (Or.inl hc))),
      fun z hz => hf.prev z (fun hc => hz (hN z (Or.inr hc)))⟩ (fun d hd => ?_) ?_ ?_
      (fun d hd => ?_) ?_
  · intro z hz hz'
    rcases List.mem_cons.mp hz' with rfl | hz'
    · rcases List.mem_cons.mp hz with he | hz
      · exact hp.ne_list _ he
      · exact hnew'.2 d hd hz
    · exact hr.disjoint hd hz hz'
  · exact List.forall_mem_cons.mpr ⟨hv, hr.key _ List.mem_cons_self⟩
  · exact List.forall_mem_cons.mpr ⟨hp,
      fun y hy => hr.isNode _ List.mem_cons_self _ (List.mem_map_of_mem hy)⟩
  · exact List.forall_mem_cons.mpr ⟨hnew'.2 d hd,
      fun y hy hc => hr.disjoint hd (List.mem_cons_of_mem _ hc)
      (List.mem_cons_of_mem _ (List.mem_map_of_mem hy))⟩
  · rw [List.mem_cons, not_or]
    exact ⟨(hp.ne_list _).symm, hr.tail_notMem List.mem_cons_self⟩

/-- A change at a pointer that no ring uses. -/
theorem Rings.put (hr : Rings h C) (hp : ∀ c ∈ C, p ∉ FrePtr.list c.node :: c.ptrs)
    (hpt : p ≠ .list .m_tail) (hp0 : p ≠ .null) (o : Option (Cell FrePtr ℕ)) :
    Rings (h.put p o) C := by
  refine ⟨hr.nodes, fun c hc => (hr.ring c hc).put_frame (hp c hc) o, fun c hc x hx => ?_, hr.ptrs,
    hr.isNode, hr.class_ne, hr.tail.put hpt hp0 o⟩
  rw [Heap.val_put, if_neg]
  · exact hr.key c hc x hx
  · rintro rfl
    exact hp c hc (List.mem_cons_of_mem _ (List.mem_map_of_mem hx))

theorem Rings.live (hr : Rings h C) (hc : c ∈ C) (hp : p ∈ FrePtr.list c.node :: c.ptrs) :
    h.Live p :=
  (hr.ring c hc).live hp

/-- The ring of a new class. -/
theorem Rings.new (hr : Rings h C) (ha : ¬ h.Live (.list a)) (f : ℤ) :
    Rings (h.put (.list a) (some ⟨.list a, .list a, 0⟩)) (⟨a, f, []⟩ :: C) := by
  have hat : a ≠ .m_tail := by
    rintro rfl
    exact ha (Heap.live_of_next hr.tail.next)
  have hput := hr.put (fun c hc hp => ha (hr.live hc hp)) (by simpa using hat) nofun
    (some ⟨.list a, .list a, 0⟩)
  have hna : a ∉ C.map FreClass.node := by
    intro hm
    obtain ⟨c, hc, rfl⟩ := List.mem_map.mp hm
    exact ha (hr.live hc List.mem_cons_self)
  exact ⟨List.nodup_cons.mpr ⟨hna, hr.nodes⟩,
    List.forall_mem_cons.mpr ⟨Heap.Ring.empty (by simp) (by simp), hput.ring⟩,
    List.forall_mem_cons.mpr ⟨by simp, hput.key⟩, hr.ptrs,
    List.forall_mem_cons.mpr ⟨by simp [FreClass.ptrs], hr.isNode⟩,
    List.forall_mem_cons.mpr ⟨hat, hr.class_ne⟩, hput.tail⟩

/-- The ring of a deleted class. -/
theorem Rings.delete (hr : Rings h (⟨a, f, []⟩ :: C)) : Rings (h.free (.list a)) C := by
  have hr' : Rings h C := by
    obtain ⟨h1, h2, h3, h4, h5, h6, h7⟩ := hr
    exact ⟨(List.nodup_cons.mp h1).2, (List.forall_mem_cons.mp h2).2,
      (List.forall_mem_cons.mp h3).2, h4, (List.forall_mem_cons.mp h5).2,
      (List.forall_mem_cons.mp h6).2, h7⟩
  have hat := hr.class_ne ⟨a, f, []⟩ (by simp)
  exact hr'.put (p := .list a) (fun c hc hp => hr.disjoint hc hp (by simp))
    (by simpa using hat) nofun none

/-! ### The class lists -/

/-- The classes `L` of the main list and `F` of the frozen list; a cache that does not freeze (`fh =
    false`) has no frozen list. -/
structure ClassLists (fh : Bool) (h : Heap Ptr ℤ) (F L : List FreClass) : Prop where
  main : IsList h .m_head (L.map FreClass.node) .m_tail
  frozen : fh = true → IsList h .m_fast_head (F.map FreClass.node) .m_fast_tail
  plain : fh = false → F = []
  fre : ∀ c ∈ F ++ L, h.val c.node = some c.fre
  disjoint : (F.map FreClass.node).Disjoint (L.map FreClass.node)
  ends : h.val .m_head = some 0 ∧ h.val .m_tail = some 0

section ClassLists
variable {fh : Bool} {h h' : Heap Ptr ℤ} {F L L' A B : List FreClass} {c : FreClass} {i : ℕ}

/-- Only nodes and frequencies matter. -/
theorem ClassLists.congr (hl : ClassLists fh h F L)
    (he : L'.map (fun c => (c.node, c.fre)) = L.map fun c => (c.node, c.fre)) :
    ClassLists fh h F L' := by
  have hn : L'.map FreClass.node = L.map FreClass.node := by
    have := congrArg (List.map Prod.fst) he
    rwa [List.map_map, List.map_map] at this
  refine ⟨hn ▸ hl.main, hl.frozen, hl.plain, fun c hc => ?_, hn ▸ hl.disjoint, hl.ends⟩
  rcases List.mem_append.mp hc with hc | hc
  · exact hl.fre c (List.mem_append_left _ hc)
  · have hm : (c.node, c.fre) ∈ L.map fun c => (c.node, c.fre) := by
      rw [← he]
      exact List.mem_map_of_mem (f := fun c : FreClass => (c.node, c.fre)) hc
    obtain ⟨d, hd, heq⟩ := List.mem_map.mp hm
    obtain ⟨h1, h2⟩ := Prod.mk.inj heq
    rw [← h1, ← h2]
    exact hl.fre d (List.mem_append_right _ hd)

theorem ClassLists.isNode (hl : ClassLists fh h F L) (hc : c ∈ F ++ L) : c.node.IsNode := by
  rcases List.mem_append.mp hc with hc | hc
  · cases fh with
    | false => rw [hl.plain rfl] at hc; cases hc
    | true => exact (hl.frozen rfl).node _ (List.mem_map_of_mem hc)
  · exact hl.main.node _ (List.mem_map_of_mem hc)

/-- A new node is on neither list. -/
theorem ClassLists.fresh_notMem (hl : ClassLists fh h F L) (hi : ¬ h.Live (.node i)) :
    Ptr.node i ∉ F.map FreClass.node ∧ Ptr.node i ∉ L.map FreClass.node := by
  have hlive : ∀ c ∈ F ++ L, c.node ≠ .node i := by
    intro c hc he
    exact hi (he ▸ Heap.live_of_val (hl.fre c hc))
  constructor
  · intro hm
    obtain ⟨c, hc, he⟩ := List.mem_map.mp hm
    exact hlive c (List.mem_append_left _ hc) he
  · intro hm
    obtain ⟨c, hc, he⟩ := List.mem_map.mp hm
    exact hlive c (List.mem_append_right _ hc) he

/-- The nodes of the main list are not on the frozen list. -/
theorem ClassLists.apart {x : Ptr} (hl : ClassLists fh h F L)
    (hx : x ∈ Ptr.m_head :: (L.map FreClass.node ++ [.m_tail])) :
    x = .m_head ∨ x = .m_tail ∨ x.IsNode ∧ x ∉ F.map FreClass.node := by
  rw [List.mem_cons, List.mem_append, List.mem_singleton] at hx
  rcases hx with hx | hx | hx
  · exact Or.inl hx
  · exact Or.inr (Or.inr ⟨hl.main.node x hx, fun hc => hl.disjoint hc hx⟩)
  · exact Or.inr (Or.inl hx)

/-- The main list changes and the frozen list does not. -/
theorem ClassLists.update {N : List Ptr} (hl : ClassLists fh h F L)
    (hmain : IsList h' .m_head (L'.map FreClass.node) .m_tail)
    (hf : ∀ x, x ∉ N → h'.next x = h.next x ∧ h'.prev x = h.prev x ∧ h'.val x = h.val x)
    (hN : ∀ x ∈ N, x = .m_head ∨ x = .m_tail ∨ x.IsNode ∧ x ∉ F.map FreClass.node)
    (hfre : ∀ c ∈ L', h'.val c.node = some c.fre)
    (hdisj : (F.map FreClass.node).Disjoint (L'.map FreClass.node))
    (hends : h'.val .m_head = some 0 ∧ h'.val .m_tail = some 0) : ClassLists fh h' F L' := by
  have hout : ∀ x, x ∈ Ptr.m_fast_head :: (F.map FreClass.node ++ [.m_fast_tail]) → x ∉ N := by
    intro x hx hxN
    rw [List.mem_cons, List.mem_append, List.mem_singleton] at hx
    rcases hN x hxN with rfl | rfl | ⟨h1, h2⟩
    · rcases hx with hx | hx | hx
      · cases hx
      · obtain ⟨d, hd, hx⟩ := List.mem_map.mp hx
        exact (hl.isNode (List.mem_append_left _ hd)).ne_of_not (a := .m_head) id hx
      · cases hx
    · rcases hx with hx | hx | hx
      · cases hx
      · obtain ⟨d, hd, hx⟩ := List.mem_map.mp hx
        exact (hl.isNode (List.mem_append_left _ hd)).ne_of_not (a := .m_tail) id hx
      · cases hx
    · rcases hx with rfl | hx | rfl
      · exact h1
      · exact h2 hx
      · exact h1
  refine ⟨hmain, fun hfh => (hl.frozen hfh).congr ?_, hl.plain, fun c hc => ?_, hdisj, hends⟩
  · have hs := (hl.frozen hfh).seg
    exact hs.congr (fun x hx => (hf x (hout x (List.dropLast_subset _ hx))).1)
      (fun x hx => (hf x (hout x (List.mem_of_mem_tail hx))).2.1)
  · rcases List.mem_append.mp hc with hc | hc
    · rw [(hf c.node (hout _ (by simp [List.mem_map_of_mem hc]))).2.2]
      exact hl.fre c (List.mem_append_left _ hc)
    · exact hfre c hc

/-- The frequency of a class of the main list is set. -/
theorem ClassLists.setFre (hl : ClassLists fh h F (A ++ c :: B)) (f : ℤ) (R : List (FrePtr × ℕ)) :
    ∃ h', h.setVal c.node f = .ok h' ∧ ClassLists fh h' F (A ++ ⟨c.node, f, R⟩ :: B) ∧
    ∀ q, h'.Live q ↔ h.Live q := by
  have hlive : h.Live c.node := Heap.live_of_val (hl.fre c (by simp))
  have hnd := hl.main.nodup
  rw [List.map_append, List.map_cons, List.nodup_middle, List.nodup_cons] at hnd
  have hdisj := hl.disjoint
  have hnode := hl.isNode (c := c) (by simp)
  refine ⟨h.withVal c.node f, Heap.setVal_eq hlive, ?_, fun q => Heap.live_withVal⟩
  refine hl.update (N := [c.node]) ?_ ?_ ?_ ?_ ?_ ?_
  · have := hl.main
    simp only [List.map_append, List.map_cons] at this ⊢
    exact this.congr (Heap.Linked.withVal this.seg f)
  · intro x hx
    rw [List.mem_singleton] at hx
    rw [Heap.next_withVal, Heap.prev_withVal, Heap.val_withVal hlive, if_neg hx]
    exact ⟨rfl, rfl, rfl⟩
  · intro x hx
    rw [List.mem_singleton.mp hx]
    exact Or.inr (Or.inr ⟨hnode, fun hc => hdisj hc (by simp)⟩)
  · intro d hd
    rw [Heap.val_withVal hlive]
    by_cases he : d.node = c.node
    · rw [if_pos he]
      rcases List.mem_append.mp hd with hd | hd
      · exact absurd (List.mem_append_left _ (List.mem_map_of_mem hd)) (he ▸ hnd.1)
      · rcases List.mem_cons.mp hd with rfl | hd
        · rfl
        · exact absurd (List.mem_append_right _ (List.mem_map_of_mem hd)) (he ▸ hnd.1)
    · rw [if_neg he]
      refine hl.fre d (List.mem_append_right _ ?_)
      simp only [List.mem_append, List.mem_cons] at hd ⊢
      rcases hd with hd | rfl | hd
      · exact Or.inl hd
      · exact absurd rfl he
      · exact Or.inr (Or.inr hd)
  · simpa using hdisj
  · rw [Heap.val_withVal hlive, Heap.val_withVal hlive, if_neg (hnode.ne_of_not id).symm,
      if_neg (hnode.ne_of_not id).symm]
    exact hl.ends

theorem pushForward_eq {p q n : Ptr} {f g : ℤ} (hp : h.prev q = some p) (hpl : h.Live p)
    (hn : h.val n = some f) (hq : h.val q = some g) (hlt : g < f) (hq0 : q ≠ .m_head)
    (hnp : n ≠ p) :
    pushForward h q n = .ok (linkedIn h p n q) := by
  have hnl := Heap.live_of_val hn
  have hql := Heap.live_of_val hq
  simp only [pushForward, assert_of hq0, Heap.getVal_eq hn, Heap.getVal_eq hq, assert_of hlt,
    Heap.getPrev_eq hp, Heap.setNext_eq, Heap.setPrev_eq, hnl, hql, hpl, ok_bind,
    Heap.live_withNext, Heap.live_withPrev]
  congr 1
  refine Heap.ext_obs (fun x => ?_) (fun x => ?_) (fun x => by simp [linkedIn])
  · simp only [linkedIn, Heap.next_withNext, Heap.next_withPrev, Heap.next_relink,
      Heap.live_withNext, Heap.live_withPrev, Heap.live_relink, hpl, hnl]
    split <;> split <;> simp_all
  · simp only [linkedIn, Heap.prev_withPrev, Heap.prev_withNext, Heap.prev_relink,
      Heap.live_withNext, Heap.live_withPrev, Heap.live_relink, hnl, hql]

/-- `pushForward` of a new class of a higher frequency than the class, or the sentinel, that it is
    put in front of. -/
theorem ClassLists.push {f g : ℤ} (hl : ClassLists fh h F (A ++ B)) (hi : ¬ h.Live (.node i))
    (hg : h.val ((B.map FreClass.node).headD .m_tail) = some g) (hlt : g < f)
    (R : List (FrePtr × ℕ)) :
    ∃ h', pushForward (h.put (.node i) (some ⟨.null, .null, f⟩))
      ((B.map FreClass.node).headD .m_tail) (.node i) = .ok h' ∧
      ClassLists fh h' F (A ++ ⟨.node i, f, R⟩ :: B) ∧ ∀ q, h'.Live q ↔ q = .node i ∨ h.Live q := by
  have hmain := hl.main
  obtain ⟨hiF, hiL⟩ := hl.fresh_notMem hi
  rw [List.map_append] at hmain hiL
  have hput := hmain.put (n := .node i) trivial hiL (some ⟨.null, .null, f⟩)
  have hnp : Ptr.node i ≠ (A.map FreClass.node).getLastD .m_head := by
    rw [List.mem_append, not_or] at hiL
    exact ne_getLastD (by simpa using hiL.1)
  have hnq : Ptr.node i ≠ (B.map FreClass.node).headD .m_tail := by
    rw [List.mem_append, not_or] at hiL
    exact ne_headD (by simpa using hiL.2)
  obtain ⟨hin, hf⟩ := hput.linkedIn (n := .node i) (by rw [Heap.live_put, if_pos rfl]; rfl) trivial
    hiL
  have hpush := pushForward_eq (f := f) (g := g) hput.seg.link_of_append.2 hput.seg.live_getLastD
    (by simp) (by rw [Heap.val_put, if_neg hnq.symm]; exact hg) hlt (hmain.first_ne (by decide) id)
    hnp
  refine ⟨_, hpush, ?_, fun q => ?_⟩
  · refine hl.update (N := .node i :: .m_head :: ((A ++ B).map FreClass.node ++ [.m_tail]))
      ?_ ?_ ?_ ?_ ?_ ?_
    · rw [List.map_append, List.map_cons]
      exact hin
    · intro x hx
      simp only [List.map_append, List.mem_append, List.mem_cons, not_or] at hx
      refine ⟨?_, ?_, ?_⟩
      · rw [hf.next x (by simp only [List.mem_append, List.mem_cons]; tauto), Heap.next_put,
          if_neg hx.1]
      · rw [hf.prev x (by simp only [List.mem_append, List.mem_cons]; tauto), Heap.prev_put,
          if_neg hx.1]
      · rw [hf.val, Heap.val_put, if_neg hx.1]
    · intro x hx
      rcases List.mem_cons.mp hx with rfl | hx
      · exact Or.inr (Or.inr ⟨trivial, hiF⟩)
      · exact hl.apart hx
    · intro d hd
      rw [hf.val, Heap.val_put]
      rcases List.mem_cons.mp (List.perm_middle.mem_iff.mp hd) with rfl | hd
      · rw [if_pos rfl]; rfl
      · rw [if_neg]
        · exact hl.fre d (List.mem_append_right _ hd)
        · intro he
          refine hiL ?_
          rw [← List.map_append, ← he]
          exact List.mem_map_of_mem hd
    · intro x hx hx'
      rw [List.map_append, List.map_cons] at hx'
      rcases List.mem_cons.mp (List.perm_middle.mem_iff.mp hx') with rfl | hx'
      · exact hiF hx
      · exact hl.disjoint hx (by rw [List.map_append]; exact hx')
    · rw [hf.val, hf.val, Heap.val_put, Heap.val_put, if_neg (by simp), if_neg (by simp)]
      exact hl.ends
  · rw [hf.live, Heap.live_put]
    by_cases hq : q = .node i
    · simp [hq]
    · simp [hq]

/-- `delink` and `delete` of a class of the main list. -/
theorem ClassLists.delete (hl : ClassLists fh h F (A ++ c :: B)) :
    ∃ h', delinkNode .null h c.node = .ok h' ∧ ClassLists fh (h'.free c.node) F (A ++ B) ∧
      ∀ q, (h'.free c.node).Live q → h.Live q := by
  have hmain := hl.main
  rw [List.map_append, List.map_cons] at hmain
  have h0 : Ptr.null ∉ Ptr.m_head :: (A.map FreClass.node ++ c.node :: B.map
      FreClass.node ++ [.m_tail]) := by
    intro hc
    rw [List.mem_cons, List.mem_append, List.mem_singleton] at hc
    rcases hc with hc | hc | hc
    · cases hc
    · exact (hmain.node _ hc).ne_null rfl
    · cases hc
  obtain ⟨hseg, hf⟩ := hmain.seg.detach hmain.nodup_left hmain.nodup_right .null
  have hnd := List.nodup_cons.mp (List.nodup_middle.mp hmain.nodup)
  have hnode := hl.isNode (c := c) (by simp)
  refine ⟨_, delinkNode_seg hmain.seg h0, ?_, fun q hq => hf.live.mp (Heap.live_free.mp hq).2⟩
  refine hl.update (N := .m_head :: ((A ++ c :: B).map FreClass.node ++ [.m_tail])) ?_ ?_
    (fun x hx => hl.apart hx) ?_ ?_ ?_
  · have hl' : IsList _ .m_head (A.map FreClass.node ++ B.map FreClass.node) .m_tail :=
      ⟨hseg, hnd.2, fun p hp => hmain.node p
        (by simp only [List.mem_append, List.mem_cons] at hp ⊢; tauto), hmain.left, hmain.right⟩
    rw [List.map_append]
    exact hl'.put hnode hnd.1 none
  · intro x hx
    have hxc : x ≠ c.node := fun he => hx (by simp [he])
    simp only [List.map_append, List.map_cons, List.mem_append, List.mem_cons, not_or] at hx
    refine ⟨?_, ?_, ?_⟩
    · rw [Heap.next_free, if_neg hxc,
        hf.next x (by simp only [List.mem_append, List.mem_cons]; tauto)]
    · rw [Heap.prev_free, if_neg hxc,
        hf.prev x (by simp only [List.mem_append, List.mem_cons]; tauto)]
    · rw [Heap.val_free, if_neg hxc, hf.val]
  · intro d hd
    rw [Heap.val_free, if_neg, hf.val]
    · refine hl.fre d (List.mem_append_right _ ?_)
      simp only [List.mem_append, List.mem_cons] at hd ⊢; tauto
    · intro he
      refine hnd.1 ?_
      rw [← he, ← List.map_append]
      exact List.mem_map_of_mem hd
  · intro x hx hx'
    refine hl.disjoint hx ?_
    simp only [List.map_append, List.map_cons, List.mem_append, List.mem_cons] at hx' ⊢; tauto
  · rw [Heap.val_free, Heap.val_free, if_neg (hnode.ne_of_not id).symm,
      if_neg (hnode.ne_of_not id).symm, hf.val, hf.val]
    exact hl.ends

end ClassLists
end FrozenHot
