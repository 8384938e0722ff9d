import FrozenHot.Schemes.DoublyLinked

/-! The list nodes of the list caches (`hhvm_lru_cache.h`, `strict_lru.h`, `FIFO.h`,
    `hhvm_lru_cache_FH.h`, `FIFO_FH.h`) and the pointer surgery they share.

    A `ListNode*` is a `Ptr`: one of the sentinels embedded in the cache object, a node obtained
    from `new`, the null pointer or `OutOfListMarker = (ListNode*)-1`. The last two designate no
    object, so that going through them is a fault. -/

namespace FrozenHot
open Schemes

/-- `ListNode*`. -/
inductive Ptr where
  | null
  | OutOfListMarker
  | m_head
  | m_tail
  | m_fast_head
  | m_fast_tail
  | node (id : ℕ)
  deriving DecidableEq, Repr

/-- A pointer that `new ListNode` returns. -/
def Ptr.IsNode : Ptr → Prop
  | .node _ => True
  | _ => False

/-- `HashMapValue`: the user's value and the list node of its key. -/
structure HashMapValue (V : Type) where
  m_value : V
  m_listNode : Ptr
  deriving DecidableEq

variable {D : Type}

/-- `isInList`. -/
def isInList (h : Heap Ptr D) (node : Ptr) : Except Fault Bool := do
  let prev ← h.getPrev node
  return prev ≠ .OutOfListMarker

/-- `delink` of the plain caches. -/
def delink (h : Heap Ptr D) (node : Ptr) : Except Fault (Heap Ptr D) := do
  let prev ← h.getPrev node
  let next ← h.getNext node
  let h ← h.setNext prev next
  let h ← h.setPrev next prev
  h.setPrev node .OutOfListMarker

/-- `delink` of the FH caches, with its assertions. -/
def delinkChecked (h : Heap Ptr D) (node : Ptr) : Except Fault (Heap Ptr D) := do
  assert (node ≠ .null)
  let prev ← h.getPrev node
  let next ← h.getNext node
  assert (prev ≠ .null)
  let h ← h.setNext prev next
  assert (next ≠ .null)
  let h ← h.setPrev next prev
  h.setPrev node .OutOfListMarker

/-- `pushFront`. -/
def pushFront (h : Heap Ptr D) (node : Ptr) : Except Fault (Heap Ptr D) := do
  let oldRealHead ← h.getNext .m_head
  let h ← h.setPrev node .m_head
  let h ← h.setNext node oldRealHead
  let h ← h.setPrev oldRealHead node
  h.setNext .m_head node

/-- `pushAfter` of the FH caches. -/
def pushAfter (h : Heap Ptr D) (nodeBefore nodeAfter : Ptr) : Except Fault (Heap Ptr D) := do
  assert (nodeAfter ≠ .null)
  let h ← h.setPrev nodeAfter nodeBefore
  assert (nodeBefore ≠ .null)
  let next ← h.getNext nodeBefore
  let h ← h.setNext nodeAfter next
  let h ← h.setPrev next nodeAfter
  h.setNext nodeBefore nodeAfter

/-! ### What the surgery does to a list -/

variable {h : Heap Ptr D} {a b n : Ptr} {L A B l : List Ptr}

/-- A list between two sentinels: linked, without repetition, and made of real nodes. -/
structure IsList (h : Heap Ptr D) (a : Ptr) (L : List Ptr) (b : Ptr) : Prop where
  seg : h.Seg a L b
  nodup : L.Nodup
  node : ∀ p ∈ L, p.IsNode
  left : ¬ a.IsNode
  right : ¬ b.IsNode

theorem Ptr.IsNode.ne_null (hn : n.IsNode) : n ≠ .null := by rintro rfl; exact hn

theorem Ptr.IsNode.ne_of_not (hn : n.IsNode) (ha : ¬ a.IsNode) : n ≠ a := by rintro rfl; exact ha hn

theorem IsList.live (hl : IsList h a L b) (hn : n ∈ L) : h.Live n := hl.seg.live (by simp [hn])

theorem IsList.live_left (hl : IsList h a L b) : h.Live a := hl.seg.live (by simp)

theorem IsList.live_right (hl : IsList h a L b) : h.Live b := hl.seg.live (by simp)

theorem IsList.left_notMem (hl : IsList h a L b) : a ∉ L := fun ha => hl.left (hl.node a ha)

theorem IsList.right_notMem (hl : IsList h a L b) : b ∉ L := fun hb => hl.right (hl.node b hb)

theorem IsList.nodup_left (hl : IsList h a L b) : (a :: L).Nodup :=
  List.nodup_cons.mpr ⟨hl.left_notMem, hl.nodup⟩

theorem IsList.nodup_right (hl : IsList h a L b) : (L ++ [b]).Nodup :=
  List.nodup_append.mpr ⟨hl.nodup, by simp, by
    intro x hx y hy; rintro rfl; simp at hy; subst hy; exact hl.right_notMem hx⟩

theorem IsList.congr {h' : Heap Ptr D} (hl : IsList h a L b) (hs : h'.Seg a L b) :
    IsList h' a L b :=
  ⟨hs, hl.nodup, hl.node, hl.left, hl.right⟩

/-- A list apart from the one a change touches stays as it is. -/
theorem IsList.frame {h' : Heap Ptr D} {c d : Ptr} {M : List Ptr} (hl : IsList h a L b)
    (hf : Heap.Frame (c :: M) (M ++ [d]) h h') (hd : (a :: (L ++ [b])).Disjoint (c :: (M ++ [d]))) :
    IsList h' a L b :=
  hl.congr (hf.linked hl.seg (fun z h1 h2 => hd h1 (by simp at h2 ⊢; tauto))
    (fun z h1 h2 => hd h1 (by simp at h2 ⊢; tauto)))

/-- Allocating or releasing a node off the list changes nothing on it. -/
theorem IsList.put (hl : IsList h a L b) (hnode : n.IsNode) (hn : n ∉ L) (c : Option (Cell Ptr D)) :
    IsList (h.put n c) a L b := by
  refine hl.congr (Heap.Linked.put_frame hl.seg ?_ c)
  have h1 : n ≠ a := hnode.ne_of_not hl.left
  have h2 : n ≠ b := hnode.ne_of_not hl.right
  simp [h1, h2, hn]

theorem IsList.last_ne (hl : IsList h a (A ++ B) b) {p : Ptr} (ha : a ≠ p) (hp : ¬ p.IsNode) :
    A.getLastD a ≠ p := by
  rcases List.mem_cons.mp (List.getLastD_mem_cons (l := A) (a := a)) with hm | hm
  · rwa [hm]
  · exact (hl.node _ (List.mem_append_left _ hm)).ne_of_not hp

theorem IsList.first_ne (hl : IsList h a (A ++ B) b) {p : Ptr} (hb : b ≠ p) (hp : ¬ p.IsNode) :
    B.headD b ≠ p := by
  rcases List.mem_append.mp (headD_mem B b) with hm | hm
  · exact (hl.node _ (List.mem_append_right _ hm)).ne_of_not hp
  · rwa [List.mem_singleton.mp hm]

/-- The heap after unlinking `n` from between `p` and `q`. -/
def unlinked (h : Heap Ptr D) (p n q : Ptr) : Heap Ptr D :=
  (h.relink p q).withPrev n .OutOfListMarker

theorem next_unlinked_ne {p q x : Ptr} (hx : x ≠ p) : (unlinked h p n q).next x = h.next x := by
  rw [unlinked, Heap.next_withPrev, Heap.next_relink_ne hx]

theorem prev_unlinked_ne {p q x : Ptr} (hn : x ≠ n) (hx : x ≠ q) :
    (unlinked h p n q).prev x = h.prev x := by
  rw [unlinked, Heap.withPrev, Heap.prev_put, if_neg hn, Heap.prev_relink_ne hx]

@[simp] theorem val_unlinked {p q x : Ptr} : (unlinked h p n q).val x = h.val x :=
  by simp [unlinked]

@[simp] theorem live_unlinked {p q x : Ptr} : (unlinked h p n q).Live x ↔ h.Live x :=
  by simp [unlinked]

/-- Unlinking a node takes it off its list and marks it. -/
theorem IsList.unlinked (hl : IsList h a (A ++ n :: B) b) :
    IsList (unlinked h (A.getLastD a) n (B.headD b)) a (A ++ B) b ∧
    Heap.Frame (a :: (A ++ n :: B)) (A ++ n :: B ++ [b]) h
    (FrozenHot.unlinked h (A.getLastD a) n (B.headD b)) ∧
    (FrozenHot.unlinked h (A.getLastD a) n (B.headD b)).prev n = some .OutOfListMarker := by
  have hd := hl.nodup
  have hp := List.getLastD_mem_cons (l := A) (a := a)
  have hq := headD_mem B b
  refine ⟨⟨?_, ?_, fun p hp => hl.node p (by simp at hp ⊢; tauto), hl.left, hl.right⟩, ?_, ?_⟩
  · refine Heap.Linked.withPrev_frame (hl.seg.unlink hl.nodup_left hl.nodup_right) ?_
    rw [List.tail_cons]
    intro hc
    rw [List.mem_append, List.mem_singleton] at hc
    rcases hc with hc | rfl
    · exact (List.nodup_middle.mp hd).notMem hc
    · exact hl.right_notMem (by simp)
  · exact (List.nodup_cons.mp (List.nodup_middle.mp hd)).2
  · exact (Heap.frame_relink (by simp at hp ⊢; tauto) (by simp at hq ⊢; tauto)).trans
      (Heap.frame_withPrev (by simp))
  · rw [FrozenHot.unlinked, Heap.prev_withPrev (by simpa using hl.live (by simp)), if_pos rfl]

theorem delink_eq {p q : Ptr} (hp : h.prev n = some p) (hq : h.next n = some q) (hpl : h.Live p)
    (hql : h.Live q) : delink h n = .ok (unlinked h p n q) := by
  have hn := Heap.live_of_prev hp
  simp [delink, Heap.getPrev_eq hp, Heap.getNext_eq hq, Heap.setNext_eq hpl, Heap.setPrev_eq, hql,
    hn, unlinked, Heap.relink]

theorem delinkChecked_eq {p q : Ptr} (hp : h.prev n = some p) (hq : h.next n = some q)
    (hpl : h.Live p) (hql : h.Live q) (hn0 : n ≠ .null) (hp0 : p ≠ .null) (hq0 : q ≠ .null) :
    delinkChecked h n = .ok (unlinked h p n q) := by
  have hn := Heap.live_of_prev hp
  simp [delinkChecked, Heap.getPrev_eq hp, Heap.getNext_eq hq, Heap.setNext_eq hpl, Heap.setPrev_eq,
    hql, hn, unlinked, Heap.relink, hn0, hp0, hq0]

/-- `delink` takes a node off its list. -/
theorem IsList.delink (hl : IsList h a (A ++ n :: B) b) :
    ∃ h', delink h n = .ok h' ∧ IsList h' a (A ++ B) b ∧
      Heap.Frame (a :: (A ++ n :: B)) (A ++ n :: B ++ [b]) h h' ∧
      h'.prev n = some .OutOfListMarker := by
  exact ⟨_, delink_eq hl.seg.prev_mid hl.seg.next_mid hl.seg.live_getLastD hl.seg.live_next_mid,
    hl.unlinked⟩

/-- The assertions of the FH caches' `delink` hold on a list. -/
theorem IsList.delinkChecked (hl : IsList h a (A ++ n :: B) b) (ha : a ≠ .null) (hb : b ≠ .null) :
    ∃ h', delinkChecked h n = .ok h' ∧ IsList h' a (A ++ B) b ∧
      Heap.Frame (a :: (A ++ n :: B)) (A ++ n :: B ++ [b]) h h' ∧
      h'.prev n = some .OutOfListMarker := by
  have hl' : IsList h a ((A ++ [n]) ++ B) b := by simpa using hl
  exact ⟨_, delinkChecked_eq hl.seg.prev_mid hl.seg.next_mid hl.seg.live_getLastD
    hl.seg.live_next_mid (hl.node n (by simp)).ne_null (hl.last_ne ha id) (hl'.first_ne hb id),
    hl.unlinked⟩

/-- The heap after linking `n` between `p` and `q`. -/
def linkedIn (h : Heap Ptr D) (p n q : Ptr) : Heap Ptr D := (h.relink p n).relink n q

theorem IsList.linkedIn (hl : IsList h a (A ++ B) b) (hn : h.Live n) (hnode : n.IsNode)
    (hnL : n ∉ A ++ B) : IsList (linkedIn h (A.getLastD a) n (B.headD b)) a (A ++ n :: B) b ∧
    Heap.Frame (a :: (A ++ n :: B)) (A ++ n :: B ++ [b]) h
    (FrozenHot.linkedIn h (A.getLastD a) n (B.headD b)) := by
  have hp := List.getLastD_mem_cons (l := A) (a := a)
  have hq := headD_mem B b
  refine ⟨⟨hl.seg.insert hl.nodup_left hl.nodup_right hn (hnode.ne_of_not hl.left)
    (hnode.ne_of_not hl.right) hnL, ?_, ?_, hl.left, hl.right⟩, ?_⟩
  · exact List.nodup_middle.mpr (List.nodup_cons.mpr ⟨hnL, hl.nodup⟩)
  · intro p hp
    rcases List.mem_cons.mp (List.perm_middle.mem_iff.mp hp) with rfl | hp
    · exact hnode
    · exact hl.node p hp
  · exact (Heap.frame_relink (by simp at hp ⊢; tauto) (by simp)).trans
      (Heap.frame_relink (by simp) (by simp at hq ⊢; tauto))

theorem pushFront_eq {q : Ptr} (hq : h.next .m_head = some q) (hql : h.Live q) (hn : h.Live n)
    (hnh : n ≠ .m_head) : pushFront h n = .ok (linkedIn h .m_head n q) := by
  have hh := Heap.live_of_next hq
  simp only [pushFront, Heap.getNext_eq hq, Heap.setNext_eq, Heap.setPrev_eq, hql, hn, hh, ok_bind,
    Heap.live_withNext, Heap.live_withPrev]
  congr 1
  refine Heap.ext_obs (fun x => ?_) (fun x => ?_) (fun x => by simp [linkedIn])
  · simp only [linkedIn, Heap.next_withNext, Heap.next_withPrev, Heap.next_relink,
      Heap.live_withNext, Heap.live_withPrev, Heap.live_relink, hh, hn]
    split <;> split <;> simp_all
  · simp only [linkedIn, Heap.prev_withPrev, Heap.prev_withNext, Heap.prev_relink,
      Heap.live_withNext, Heap.live_withPrev, Heap.live_relink, hn, hql]

/-- `pushFront` puts a node at the head of the main list. -/
theorem IsList.pushFront (hl : IsList h .m_head L b) (hn : h.Live n) (hnode : n.IsNode)
    (hnL : n ∉ L) :
    ∃ h', pushFront h n = .ok h' ∧ IsList h' .m_head (n :: L) b ∧
      Heap.Frame (.m_head :: n :: L) (n :: L ++ [b]) h h' := by
  have hin := IsList.linkedIn (A := []) hl hn hnode hnL
  exact ⟨_, pushFront_eq hl.seg.next_first (Heap.Seg.live_headD (A := []) hl.seg) hn
    (hnode.ne_of_not hl.left), hin.1, hin.2⟩

theorem pushAfter_eq {p q : Ptr} (hq : h.next p = some q) (hql : h.Live q) (hn : h.Live n)
    (hnp : n ≠ p) (hn0 : n ≠ .null) (hp0 : p ≠ .null) :
    pushAfter h p n = .ok (linkedIn h p n q) := by
  have hp := Heap.live_of_next hq
  have hq' : (h.withPrev n p).next p = some q := by rwa [Heap.next_withPrev]
  simp only [pushAfter, assert_of hn0, assert_of hp0, Heap.getNext_eq hq', Heap.setNext_eq,
    Heap.setPrev_eq, hql, hn, hp, ok_bind, Heap.live_withNext, Heap.live_withPrev]
  congr 1
  refine Heap.ext_obs (fun x => ?_) (fun x => ?_) (fun x => by simp [linkedIn])
  · simp only [linkedIn, Heap.next_withNext, Heap.next_withPrev, Heap.next_relink,
      Heap.live_withNext, Heap.live_withPrev, Heap.live_relink, hp, hn]
    split <;> split <;> simp_all
  · simp only [linkedIn, Heap.prev_withPrev, Heap.prev_withNext, Heap.prev_relink,
      Heap.live_withNext, Heap.live_withPrev, Heap.live_relink, hn, hql]

/-- `pushAfter` puts a node behind another. -/
theorem IsList.pushAfter {p : Ptr} (hl : IsList h a (A ++ p :: B) b) (hn : h.Live n)
    (hnode : n.IsNode) (hnL : n ∉ A ++ p :: B) :
    ∃ h', pushAfter h p n = .ok h' ∧ IsList h' a (A ++ p :: n :: B) b ∧
      Heap.Frame (a :: (A ++ p :: n :: B)) (A ++ p :: n :: B ++ [b]) h h' := by
  have hsplit : A ++ p :: B = A ++ [p] ++ B := by simp
  have hin := IsList.linkedIn (A := A ++ [p]) (hsplit ▸ hl) hn hnode (hsplit ▸ hnL)
  rw [getLastD_append] at hin
  have hp : p.IsNode := hl.node p (by simp)
  refine ⟨_, pushAfter_eq hl.seg.next_mid hl.seg.live_next_mid hn ?_ hnode.ne_null hp.ne_null,
    ?_, ?_⟩
  · rintro rfl
    exact hnL (by simp)
  · simpa using hin.1
  · simpa using hin.2

theorem IsList.isInList (hl : IsList h a L b) (ha : a ≠ .OutOfListMarker) (hn : n ∈ L) :
    isInList h n = .ok true := by
  obtain ⟨A, B, rfl⟩ := List.append_of_mem hn
  have hlast := hl.last_ne ha id
  rw [FrozenHot.isInList, Heap.getPrev_eq hl.seg.prev_mid, ok_bind, pure_eq_ok,
    decide_eq_true hlast]

theorem isInList_unlinked (hn : h.prev n = some .OutOfListMarker) : isInList h n = .ok false := by
  simp [isInList, Heap.getPrev_eq hn]

end FrozenHot
