import FrozenHot.Freeze.DropIn
import FrozenHot.Freeze.LFUModes
import FrozenHot.Schemes.Lockstep

/-! With freezing never used, `LFU_FHCache` is a drop-in replacement for `LFUCache`.

    The two keep the same classes, rings and map; `LFU_FHCache` only has two more sentinels, which
    nothing points to. Going through the text of `find` and `insert` shows that they return the same
    or fail alike, whatever was called before. -/

namespace FrozenHot
open Schemes

variable {α V : Type}

/-- The sentinels of the frozen list. -/
def Ptr.IsFast : Ptr → Prop
  | .m_fast_head | .m_fast_tail => True
  | _ => False

/-- Their `list`s. -/
def FrePtr.IsFast : FrePtr → Prop
  | .list p => p.IsFast
  | _ => False

/-- `d` is `c` with more sentinels, which nothing in `c` points to. -/
structure LFUCore.Twin (c d : LFUCore V) : Prop where
  classes : Heap.Beside Ptr.IsFast c.classes d.classes
  rings : Heap.Beside FrePtr.IsFast c.rings d.rings
  entries : ∀ k e, c.m_map.lookup k = some e → ¬ e.listNode.IsFast ∧ ¬ e.freNode.IsFast
  rest : d = { c with classes := d.classes, rings := d.rings }

section Lists
variable {P D : Type} [DecidableEq P] {B : P → Prop} {h h' : Heap P D} {null n : P}

theorem delinkNode_agree (hb : Heap.Beside B h h') (hn : ¬ B n) (h0 : ¬ B null) :
    Agree (Heap.Beside B) (delinkNode null h n) (delinkNode null h' n) := by
  refine (Agree.assert Iff.rfl).bind fun _ _ _ => ?_
  refine (hb.getPrev hn).bind ?_
  rintro prev _ ⟨rfl, hprev⟩
  refine (hb.getNext hn).bind ?_
  rintro next _ ⟨rfl, hnext⟩
  refine (Agree.assert Iff.rfl).bind fun _ _ _ => ?_
  refine (hb.setNext hprev hnext).bind fun h₁ h₁' hb₁ => ?_
  refine (Agree.assert Iff.rfl).bind fun _ _ _ => ?_
  refine (hb₁.setPrev hnext hprev).bind fun h₂ h₂' hb₂ => ?_
  exact (hb₂.setPrev hn h0).bind fun h₃ h₃' hb₃ => hb₃.setNext hn h0

end Lists

variable {r r' : Heap FrePtr ℕ} {h h' : Heap Ptr ℤ} {a b : Ptr} {p : FrePtr}

theorem ringPushFront_agree (hb : Heap.Beside FrePtr.IsFast r r') (ha : ¬ a.IsFast)
    (hp : ¬ p.IsFast) :
    Agree (Heap.Beside FrePtr.IsFast) (ringPushFront r a p) (ringPushFront r' a p) := by
  have ha' : ¬ (FrePtr.list a).IsFast := ha
  refine (hb.getNext ha').bind ?_
  rintro q _ ⟨rfl, hq⟩
  refine (hb.setPrev hp ha').bind fun r₁ r₁' hb₁ => ?_
  refine (hb₁.setNext hp hq).bind fun r₂ r₂' hb₂ => ?_
  exact (hb₂.setPrev hq hp).bind fun r₃ r₃' hb₃ => hb₃.setNext ha' hp

theorem ringEmpty_agree (hb : Heap.Beside FrePtr.IsFast r r') (ha : ¬ a.IsFast) :
    Agree Eq (ringEmpty r a) (ringEmpty r' a) := by
  have ha' : ¬ (FrePtr.list a).IsFast := ha
  refine (hb.getNext ha').bind ?_
  rintro q _ ⟨rfl, -⟩
  refine (hb.getPrev ha').bind ?_
  rintro q' _ ⟨rfl, -⟩
  exact .ok rfl

theorem pushForward_agree (hb : Heap.Beside Ptr.IsFast h h') (ha : ¬ a.IsFast) (hn : ¬ b.IsFast) :
    Agree (Heap.Beside Ptr.IsFast) (pushForward h a b) (pushForward h' a b) := by
  refine (Agree.assert Iff.rfl).bind fun _ _ _ => ?_
  refine (hb.getVal hn).bind fun f _ hf => ?_
  subst hf
  refine (hb.getVal ha).bind fun g _ hg => ?_
  subst hg
  refine (Agree.assert Iff.rfl).bind fun _ _ _ => ?_
  refine (hb.getPrev ha).bind ?_
  rintro prev _ ⟨rfl, hprev⟩
  refine (hb.setPrev hn hprev).bind fun h₁ h₁' hb₁ => ?_
  refine (hb₁.setNext hn ha).bind fun h₂ h₂' hb₂ => ?_
  exact (hb₂.setNext hprev hn).bind fun h₃ h₃' hb₃ => hb₃.setPrev ha hn

namespace LFUCore
variable {c d : LFUCore V} {e : LFUValue V} {key : ℕ} {value : V}
    {m : Finmap fun _ : ℕ => LFUValue V}

/-- What is compared after a call: the answer, and the caches. -/
abbrev Alike {B : Type} (r r' : B × LFUCore V) : Prop := r.1 = r'.1 ∧ Twin r.2 r'.2

theorem twin (hh : Heap.Beside Ptr.IsFast c.classes h') (hr : Heap.Beside FrePtr.IsFast c.rings r')
    (he : ∀ k e, c.m_map.lookup k = some e → ¬ e.listNode.IsFast ∧ ¬ e.freNode.IsFast) :
    Twin c { c with classes := h', rings := r' } := ⟨hh, hr, he, rfl⟩

/-- Entries after one of them was written. -/
theorem entries_insert (he : ∀ k e, m.lookup k = some e → ¬ e.listNode.IsFast ∧ ¬ e.freNode.IsFast)
    (key : ℕ) (hl : ¬ e.listNode.IsFast) (hf : ¬ e.freNode.IsFast) :
    ∀ k e', (m.insert key e).lookup k = some e' → ¬ e'.listNode.IsFast ∧ ¬ e'.freNode.IsFast := by
  intro k e' h
  by_cases hk : k = key
  · rw [hk, Finmap.lookup_insert] at h
    cases h
    exact ⟨hl, hf⟩
  · rw [Finmap.lookup_insert_of_ne _ hk] at h
    exact he k e' h

/-- A new class in both. -/
theorem newListNode_rings (hr : Heap.Beside FrePtr.IsFast r r') (i : ℕ) :
    Heap.Beside FrePtr.IsFast (r.put (.list (.node i)) (some ⟨.list (.node i), .list (.node i), 0⟩))
      (r'.put (.list (.node i)) (some ⟨.list (.node i), .list (.node i), 0⟩)) :=
  hr.put _ (by simp [FrePtr.IsFast, Ptr.IsFast])

theorem newListNode_classes (hh : Heap.Beside Ptr.IsFast h h') (i : ℕ) (f : ℤ) :
    Heap.Beside Ptr.IsFast (h.put (.node i) (some ⟨.null, .null, f⟩))
    (h'.put (.node i) (some ⟨.null, .null, f⟩)) :=
  hh.put _ (by simp [Ptr.IsFast])

theorem Twin.raise (ht : Twin c d) (hl : ¬ e.listNode.IsFast) (hf : ¬ e.freNode.IsFast) (fre : ℤ) :
    Agree Twin (c.raise key e fre) (d.raise key e fre) := by
  obtain ⟨hh, hr, hent, hrest⟩ := ht
  rw [hrest]
  generalize d.classes = h' at hh ⊢
  generalize d.rings = r' at hr ⊢
  refine (hr.getPrev hf).bind ?_
  rintro prev _ ⟨rfl, -⟩
  refine (hr.getNext hf).bind ?_
  rintro next _ ⟨rfl, -⟩
  refine Agree.ite Iff.rfl (fun _ => ?_) (fun _ => ?_)
  · refine (Agree.assert Iff.rfl).bind fun _ _ _ => ?_
    exact (hh.setVal hl _).bind fun h₁ h₁' hh₁ => .ok (twin hh₁ hr hent)
  · refine (delinkNode_agree hr hf id).bind fun r₁ r₁' hr₁ => ?_
    refine (ringPushFront_agree (a := .node c.fresh) (newListNode_rings hr₁ c.fresh) id hf).bind
      fun r₂ r₂' hr₂ => ?_
    refine (pushForward_agree (b := .node c.fresh)
      (newListNode_classes hh c.fresh (toInt (fre + 1))) hl id).bind
      fun h₁ h₁' hh₁ => ?_
    exact .ok (twin hh₁ hr₂ (entries_insert hent key id hf))

theorem Twin.join (ht : Twin c d) (hl : ¬ e.listNode.IsFast) (hf : ¬ e.freNode.IsFast)
    (ha : ¬ a.IsFast) :
    Agree Twin (c.join key e a) (d.join key e a) := by
  obtain ⟨hh, hr, hent, hrest⟩ := ht
  rw [hrest]
  generalize d.classes = h' at hh ⊢
  generalize d.rings = r' at hr ⊢
  have hent' := entries_insert (e := { e with listNode := a }) hent key ha hf
  refine (delinkNode_agree hr hf id).bind fun r₁ r₁' hr₁ => ?_
  refine (ringPushFront_agree hr₁ ha hf).bind fun r₂ r₂' hr₂ => ?_
  refine (ringEmpty_agree hr₂ hl).bind fun b _ hb => ?_
  subst hb
  refine Agree.ite Iff.rfl (fun _ => ?_) (fun _ => .ok (twin hh hr₂ hent'))
  exact (delinkNode_agree hh hl id).bind fun h₁ h₁' hh₁ =>
    .ok (twin (hh₁.free _) (hr₂.free _) hent')

theorem Twin.touch (ht : Twin c d) (hl : ¬ e.listNode.IsFast) (hf : ¬ e.freNode.IsFast) :
    Agree Twin (c.touch key e) (d.touch key e) := by
  refine (ht.classes.getVal hl).bind fun fre _ hfre => ?_
  subst hfre
  refine (ht.rings.getPrev hf).bind ?_
  rintro q _ ⟨rfl, -⟩
  refine Agree.ite Iff.rfl (fun _ => ?_) (fun _ => .ok ht)
  refine (ht.classes.getPrev hl).bind ?_
  rintro prev _ ⟨rfl, hprev⟩
  refine (ht.classes.getVal hprev).bind fun g _ hg => ?_
  subst hg
  refine Agree.ite Iff.rfl (fun _ => ht.raise hl hf fre) (fun _ => ?_)
  exact Agree.ite Iff.rfl (fun _ => .error _) (fun _ => ht.join hl hf hprev)

theorem Twin.classOne (ht : Twin c d) (hp : ¬ p.IsFast) :
    Agree (fun r r' => r.1 = r'.1 ∧ ¬ r.1.IsFast ∧ Twin r.2 r'.2) (c.classOne p)
    (d.classOne p) := by
  obtain ⟨hh, hr, hent, hrest⟩ := ht
  rw [hrest]
  generalize d.classes = h' at hh ⊢
  generalize d.rings = r' at hr ⊢
  refine (hh.getPrev (p := .m_tail) id).bind ?_
  rintro a _ ⟨rfl, ha⟩
  refine (hh.getVal ha).bind fun f _ hf => ?_
  subst hf
  refine Agree.ite Iff.rfl (fun _ => ?_) (fun _ => ?_)
  · exact (ringPushFront_agree hr ha hp).bind fun r₁ r₁' hr₁ => .ok ⟨rfl, ha, twin hh hr₁ hent⟩
  · refine (ringPushFront_agree (a := .node c.fresh) (newListNode_rings hr c.fresh) id hp).bind
      fun r₁ r₁' hr₁ => ?_
    refine (pushForward_agree (a := .m_tail) (b := .node c.fresh)
      (newListNode_classes hh c.fresh (toInt 1)) id id).bind
      fun h₁ h₁' hh₁ => ?_
    exact .ok ⟨rfl, id, twin hh₁ hr₁ hent⟩

theorem Twin.evict (ht : Twin c d) : Agree Alike c.evict d.evict := by
  obtain ⟨hh, hr, hent, hrest⟩ := ht
  rw [hrest]
  generalize d.classes = h' at hh ⊢
  generalize d.rings = r' at hr ⊢
  refine (hh.getPrev (p := .m_tail) id).bind ?_
  rintro a _ ⟨rfl, ha⟩
  refine (Agree.assert Iff.rfl).bind fun _ _ _ => ?_
  have ha' : ¬ (FrePtr.list a).IsFast := ha
  refine (hr.getPrev ha').bind ?_
  rintro p _ ⟨rfl, hp⟩
  refine (Agree.assert Iff.rfl).bind fun _ _ _ => ?_
  refine (delinkNode_agree hr hp id).bind fun r₁ r₁' hr₁ => ?_
  refine (hr₁.getVal hp).bind fun k _ hk => ?_
  subst hk
  dsimp only
  cases c.m_map.lookup k with
  | none => exact .ok ⟨rfl, twin hh hr₁ hent⟩
  | some e =>
    refine .ok ⟨rfl, twin hh (hr₁.free p) fun k' e' he' => hent k' e' ?_⟩
    by_cases hk : k' = k
    · rw [hk, Finmap.lookup_erase] at he'
      cases he'
    · rwa [Finmap.lookup_erase_ne hk] at he'

theorem Twin.enlist (ht : Twin c d) (hp : ¬ p.IsFast) :
    Agree Alike (c.enlist key value p) (d.enlist key value p) := by
  refine (ht.classOne hp).bind ?_
  rintro ⟨a, c₁⟩ ⟨a', d₁⟩ ⟨haa, ha, ht₁⟩
  dsimp only at haa ha ht₁
  subst haa
  have ht₂ : Twin (setListNode c₁ key ⟨value, .null, p⟩ a)
      (setListNode d₁ key ⟨value, .null, p⟩ a) := by
    obtain ⟨hh, hr, hent, hrest⟩ := ht₁
    rw [hrest]
    exact twin hh hr (entries_insert hent key ha hp)
  dsimp only at ht₂ ⊢
  generalize setListNode c₁ key ⟨value, .null, p⟩ a = c₂ at ht₂ ⊢
  generalize setListNode d₁ key ⟨value, .null, p⟩ a = d₂ at ht₂ ⊢
  have hn : d₂.n = c₂.n := by rw [ht₂.rest]
  have hs : d₂.s = c₂.s := by rw [ht₂.rest]
  rw [hn, hs]
  refine (Agree.assert Iff.rfl).bind fun _ _ _ => ?_
  refine Agree.ite Iff.rfl (fun _ => ?_) (fun _ => ht₂.evict)
  obtain ⟨hh, hr, hent, hrest⟩ := ht₂
  rw [hrest]
  exact .ok ⟨rfl, twin hh hr hent⟩

end LFUCore

namespace LFUCache
variable {c d : LFUCache V}
open LFUCore

theorem find_agree (ht : Twin c d) (key : ℕ) : Agree Alike (find c key) (find d key) := by
  have hm : d.m_map = c.m_map := by rw [ht.rest]
  simp only [find, hm]
  cases he : c.m_map.lookup key with
  | none => exact .ok ⟨rfl, ht⟩
  | some e =>
    obtain ⟨hl, hf⟩ := ht.entries key e he
    refine Agree.ite Iff.rfl (fun _ => .error _) (fun _ => ?_)
    exact (ht.touch hl hf).bind fun c₁ d₁ ht₁ => .ok ⟨rfl, ht₁⟩

theorem insert_agree (ht : Twin c d) (key : ℕ) (value : V) :
    Agree Alike (insert c key value) (insert d key value) := by
  obtain ⟨hh, hr, hent, hrest⟩ := ht
  rw [hrest]
  generalize d.classes = h' at hh ⊢
  generalize d.rings = r' at hr ⊢
  have hr₁ := hr.put (.node c.fresh) (o := some ⟨.null, .null, key⟩) (by simp [FrePtr.IsFast])
  refine Agree.ite Iff.rfl (fun _ => .ok ⟨rfl, twin hh (hr₁.free _) hent⟩) (fun _ => ?_)
  refine Twin.enlist (p := .node c.fresh) (twin hh hr₁ ?_) id
  exact entries_insert (e := ⟨value, .null, .node c.fresh⟩) hent key id id

end LFUCache

/-! ### The calls with `size()` -/

/-- A call of `LFUCache`, with its `size()` afterwards. -/
def LFUCache.request (σ : LFUCache V) (c : LFUCall V) :
    Except Fault ((LFUResp V × ℕ) × LFUCache V) := do
  let r ← LFUCache.call σ c
  return ((r.1, r.2.s), r.2)

/-- A call of `LFU_FHCache`, with its `size()` afterwards. -/
def LFU_FHCache.request (σ : LFUShard α) :
    LFUCall (Option α) → Except Fault ((LFUResp (Option α) × ℕ) × LFUShard α)
  | .find key => do let r ← σ.find key; return ((.found r.1, r.2.s), r.2)
  | .insert key value => do let r ← σ.insert key value; return ((.inserted r.1, r.2.s), r.2)

/-- An `LFU_FHCache` that was never frozen next to an `LFUCache`. -/
structure LFUShard.Plain (σ : LFUShard α) (c : LFUCache (Option α)) : Prop where
  twin : LFUCore.Twin c σ.toLFUCore
  flags : σ.FH_ready = false ∧ σ.FH_construct = false ∧ σ.tier_ready = false ∧
    σ.tier_no_insert = false ∧ σ.curve_flag = false

variable {σ : LFUShard α} {c : LFUCache (Option α)}

theorem LFUShard.Plain.init (n : ℕ) :
    LFUShard.Plain (LFUShard.init n : LFUShard α) (LFUCore.init n) := by
  refine ⟨⟨⟨fun p hp => ?_, fun p c hp hc => ?_⟩, ⟨fun p hp => ?_, fun p c hp hc => ?_⟩, ?_, rfl⟩,
    rfl, rfl, rfl, rfl, rfl⟩
  · have h1 : p ≠ .m_fast_tail := by rintro rfl; exact hp trivial
    have h2 : p ≠ .m_fast_head := by rintro rfl; exact hp trivial
    simp [LFUShard.init, Heap.put, h1, h2]
  · simp only [LFUCore.init, Heap.put, Heap.empty] at hc
    split at hc
    · cases hc; exact ⟨id, id⟩
    · split at hc
      · cases hc; exact ⟨id, id⟩
      · cases hc
  · have h1 : p ≠ .list .m_fast_tail := by rintro rfl; exact hp trivial
    have h2 : p ≠ .list .m_fast_head := by rintro rfl; exact hp trivial
    simp [LFUShard.init, Heap.put, h1, h2]
  · simp only [LFUCore.init, Heap.put, Heap.empty] at hc
    split at hc
    · cases hc; exact ⟨id, id⟩
    · split at hc
      · cases hc; exact ⟨id, id⟩
      · cases hc
  · simp [LFUCore.init]

/-- A shard in plain mode finds as `LFUCache` does. -/
theorem LFUShard.find_eq
    (h : σ.FH_ready = false ∧ σ.FH_construct = false ∧ σ.tier_ready = false ∧
      σ.tier_no_insert = false ∧ σ.curve_flag = false)
    (k : ℕ) :
    σ.find k = LFUCache.find σ.toLFUCore k >>= fun r => .ok (r.1, { σ with toLFUCore := r.2 }) :=
  find_of_counts ⟨h.2.1, h.2.2.2.2, fun hr => absurd (h.1.symm.trans hr) Bool.false_ne_true⟩

theorem LFUShard.Plain.request (hp : LFUShard.Plain σ c) (call : LFUCall (Option α)) :
    Agree (fun r r' => r.1 = r'.1 ∧ LFUShard.Plain r'.2 r.2) (LFUCache.request c call)
    (LFU_FHCache.request σ call) := by
  have hsize : ∀ {c' d' : LFUCore (Option α)}, LFUCore.Twin c' d' → d'.s = c'.s := fun ht => by
    rw [ht.rest]
  cases call with
  | find k =>
    have h := LFUCache.find_agree hp.twin k
    simp only [LFUCache.request, LFUCache.call, LFU_FHCache.request, LFUShard.find_eq hp.flags]
    generalize LFUCache.find c k = x at h ⊢
    generalize LFUCache.find σ.toLFUCore k = y at h ⊢
    cases h with
    | error e => exact .error e
    | ok h => exact .ok ⟨by simp [h.1, hsize h.2], h.2, hp.flags⟩
  | insert k v =>
    have h := LFUCache.insert_agree hp.twin k v
    simp only [LFUCache.request, LFUCache.call, LFU_FHCache.request,
      LFUShard.insert_eq hp.flags.2.2.2.1 hp.flags.2.2.2.2]
    generalize LFUCache.insert c k v = x at h ⊢
    generalize LFUCache.insert σ.toLFUCore k v = y at h ⊢
    cases h with
    | error e => exact .error e
    | ok h => exact .ok ⟨by simp [h.1, hsize h.2], h.2, hp.flags⟩

/-- With freezing never used, the FrozenHot caches answer as the caches they replace, at every step:
    hits, values, results of insertions and `size()`. For the LFU caches a call fails in one if and
    only if it fails in the other. -/
theorem drop_in_replacements :
    (∀ (κ : FHList) (N : ℕ) (rs : List (Bool × Request (Option α))), 1 ≤ N → (∀ r ∈ rs, r.2.Valid) →
      ∃ os σ σ', exec κ.request (Shard.init N : Shard α) rs = .ok (os, σ) ∧
        exec κ.replaced (PlainCache.init N) rs = .ok (os, σ')) ∧
    ∀ (n : ℕ) (cs : List (LFUCall (Option α))),
      (exec LFU_FHCache.request (LFUShard.init n : LFUShard α) cs).map Prod.fst =
        (exec LFUCache.request (LFUCore.init n) cs).map Prod.fst := by
  refine ⟨fun κ N rs hpos hv => κ.drop_in hpos rs hv, fun n cs => ?_⟩
  have hstep (c : LFUCache (Option α)) (σ : LFUShard α) (call : LFUCall (Option α)) (_ : True)
      (hp : LFUShard.Plain σ c) :
      Agree (fun r r' => r.1 = r'.1 ∧ LFUShard.Plain r'.2 r.2) (LFUCache.request c call)
          (LFU_FHCache.request σ (id call)) :=
    LFUShard.Plain.request hp call
  have h := Agree.exec hstep (l := cs) (fun _ _ => trivial) (LFUShard.Plain.init n)
  rw [List.map_id] at h
  exact (h.map_eq fun r r' hr => hr.1).symm

/-- Three reads with room for one entry. -/
theorem drop_in_replacements_one : ∃ os σ σ',
    exec FHList.LRU_FH.request (Shard.init 1 : Shard ℕ) [(true, .read 3 (some 7)),
      (true, .read 3 (some 8)), (true, .read 4 (some 9))] =
      .ok (os, σ) ∧
    exec FHList.LRU_FH.replaced (PlainCache.init 1) [(true, .read 3 (some 7)),
      (true, .read 3 (some 8)), (true, .read 4 (some 9))] =
      .ok (os, σ') :=
  drop_in_replacements.1 .LRU_FH 1 _ (le_refl 1) (by simp [Request.Valid, ValidKey])

end FrozenHot
