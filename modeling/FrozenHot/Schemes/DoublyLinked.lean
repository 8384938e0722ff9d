import FrozenHot.Schemes.Heap
import Mathlib.Data.List.Perm.Subperm

/-! Doubly linked lists in a heap of cells.

    `Linked h l`: consecutive pointers of `l` are linked both ways. `Seg h a L b` is the list `L`
    between the end points `a` and `b`, sentinels included; a ring is a segment from its sentinel to
    itself. Every surgery is a composition of `relink`s, so two facts carry all of them: what a
    relink leaves alone (`Linked.relink_frame`) and what it connects (`Linked.relink_join`). -/

namespace Schemes

section Ends
variable {P : Type} {a b x : P} {L M : List P}

theorem getLastD_append : (L ++ M).getLastD a = M.getLastD (L.getLastD a) := by
  cases M <;> simp [List.getLast?_cons]

theorem head?_concat_headD (L : List P) (b : P) : (L ++ [b]).head? = some (L.headD b) := by
  rw [List.head?_concat, List.headD_eq_head?_getD]

theorem getLast?_cons_getLastD (a : P) (L : List P) : (a :: L).getLast? = some (L.getLastD a) := by
  rw [List.getLast?_cons, List.getLastD_eq_getLast?]

theorem headD_mem (L : List P) (b : P) : L.headD b ∈ L ++ [b] := by
  cases L <;> simp

theorem ne_headD (hx : x ∉ L ++ [b]) : x ≠ L.headD b := by
  rintro rfl
  exact hx (headD_mem L b)

theorem ne_getLastD (hx : x ∉ a :: L) : x ≠ L.getLastD a := by
  rintro rfl
  exact hx List.getLastD_mem_cons

theorem getLastD_notMem_dropLast (hd : (a :: L).Nodup) : L.getLastD a ∉ (a :: L).dropLast := by
  rcases L.eq_nil_or_concat with rfl | ⟨M, z, rfl⟩
  · simp
  · rw [List.concat_eq_append, ← List.cons_append] at *
    rw [List.dropLast_concat, getLastD_append]
    intro hz
    exact (List.nodup_append.mp hd).2.2 z hz z (by simp) rfl

theorem headD_notMem_tail (hd : (L ++ [b]).Nodup) : L.headD b ∉ (L ++ [b]).tail := by
  cases L with
  | nil => simp
  | cons c L => simpa using (List.nodup_cons.mp hd).1

/-- Distinct pointers to addresses below `n` are at most `n`; the fuel of a walk along a list is
    chosen by it. -/
theorem length_le_of_addresses {f : ℕ → P} {n : ℕ} (hd : L.Nodup) (hf : ∀ x ∈ L, ∃ i < n, x = f i) :
    L.length ≤ n := by
  have hsub : L ⊆ (List.range n).map f := by
    intro x hx
    obtain ⟨i, hi, rfl⟩ := hf x hx
    exact List.mem_map_of_mem (List.mem_range.mpr hi)
  have := (hd.subperm hsub).length_le
  rwa [List.length_map, List.length_range] at this

end Ends

namespace Heap
variable {P D : Type}

/-- `x` and `y` are neighbours: `x.next = y` and `y.prev = x`. -/
def Link (h : Heap P D) (x y : P) : Prop := h.next x = some y ∧ h.prev y = some x

/-- The pointers of `l` follow one another in both directions. -/
def Linked (h : Heap P D) (l : List P) : Prop := l.IsChain h.Link

/-- The list `L` from `a` to `b`, both ends excluded. -/
def Seg (h : Heap P D) (a : P) (L : List P) (b : P) : Prop := h.Linked (a :: (L ++ [b]))

variable {h h' : Heap P D} {a b x y p q n : P} {l A B C L : List P}

/-- `Linked` only reads `next` before the last pointer and `prev` after the first. -/
theorem Linked.congr (hl : h.Linked l) (hn : ∀ x ∈ l.dropLast, h'.next x = h.next x)
    (hp : ∀ x ∈ l.tail, h'.prev x = h.prev x) : h'.Linked l := by
  rw [Linked, List.isChain_iff_forall_rel_of_append_cons_cons] at *
  rintro u v l₁ l₂ rfl
  obtain ⟨h1, h2⟩ := hl rfl
  have hu : u ∈ (l₁ ++ u :: v :: l₂).dropLast := by simp [List.dropLast_append_of_ne_nil]
  have hv : v ∈ (l₁ ++ u :: v :: l₂).tail := by cases l₁ <;> simp
  exact ⟨(hn u hu).trans h1, (hp v hv).trans h2⟩

theorem Linked.left (hl : h.Linked (A ++ B)) : h.Linked A := List.IsChain.left_of_append hl

theorem Linked.right (hl : h.Linked (A ++ B)) : h.Linked B := List.IsChain.right_of_append hl

/-- Every pointer of a segment, its ends included, designates a live cell. -/
theorem Seg.live (hs : h.Seg a L b) (hx : x ∈ a :: (L ++ [b])) : h.Live x := by
  unfold Seg at hs
  induction L generalizing a with
  | nil =>
    obtain ⟨h1, h2⟩ := List.rel_of_isChain_cons_cons hs
    have : x = a ∨ x = b := by simpa using hx
    rcases this with rfl | rfl
    · exact live_of_next h1
    · exact live_of_prev h2
  | cons c L ih =>
    rcases List.mem_cons.mp hx with rfl | hx
    · exact live_of_next (List.rel_of_isChain_cons_cons hs).1
    · exact ih (List.isChain_of_isChain_cons hs) hx

theorem Seg.next_first (hs : h.Seg a L b) : h.next a = some (L.headD b) := by
  cases L with
  | nil => exact (List.rel_of_isChain_cons_cons hs).1
  | cons c L => exact (List.rel_of_isChain_cons_cons hs).1

theorem Seg.tail (hs : h.Seg a (x :: L) b) : h.Seg x L b := List.isChain_of_isChain_cons hs

theorem Seg.link_of_append (hs : h.Seg a (A ++ B) b) : h.Link (A.getLastD a) (B.headD b) := by
  induction A generalizing a with
  | nil =>
    cases B with
    | nil => exact List.rel_of_isChain_cons_cons hs
    | cons c L => exact List.rel_of_isChain_cons_cons hs
  | cons c A ih =>
    rw [List.getLastD_cons]
    exact ih hs.tail

/-- The cells at a cut of a segment are live. -/
theorem Seg.live_getLastD (hs : h.Seg a (A ++ B) b) : h.Live (A.getLastD a) :=
  live_of_next hs.link_of_append.1

theorem Seg.live_headD (hs : h.Seg a (A ++ B) b) : h.Live (B.headD b) :=
  live_of_prev hs.link_of_append.2

theorem Seg.prev_last (hs : h.Seg a L b) : h.prev b = some (L.getLastD a) := by
  have := (Seg.link_of_append (B := []) (by simpa using hs)).2
  simpa using this

theorem Seg.prev_mid (hs : h.Seg a (A ++ n :: B) b) : h.prev n = some (A.getLastD a) :=
  hs.link_of_append.2

theorem Seg.next_mid (hs : h.Seg a (A ++ n :: B) b) : h.next n = some (B.headD b) := by
  have := (Seg.link_of_append (A := A ++ [n]) (B := B) (by simpa using hs)).1
  simpa using this

theorem Seg.live_next_mid (hs : h.Seg a (A ++ n :: B) b) : h.Live (B.headD b) :=
  Seg.live_headD (A := A ++ [n]) (by simpa using hs)

/-- The pointer after that of `z`, where `f` gives the pointers. -/
theorem Seg.next_map {X : Type*} {f : X → P} {C E : List X} {z : X}
    (hs : h.Seg a ((C ++ z :: E).map f) b) :
    h.next (f z) = some ((E.map f).headD b) := by
  rw [List.map_append, List.map_cons] at hs
  exact hs.next_mid

/-- From a member the links lead to members. -/
theorem Seg.next_mem (hs : h.Seg a L b) (hx : x ∈ a :: L) : ∃ y ∈ L ++ [b], h.next x = some y := by
  rcases List.mem_cons.mp hx with rfl | hx
  · exact ⟨_, headD_mem L b, hs.next_first⟩
  · obtain ⟨A, B, rfl⟩ := List.append_of_mem hx
    have := headD_mem B b
    exact ⟨B.headD b, by simp at this ⊢; tauto, hs.next_mid⟩

theorem Seg.prev_mem (hs : h.Seg a L b) (hx : x ∈ L ++ [b]) : ∃ y ∈ a :: L, h.prev x = some y := by
  rcases List.mem_append.mp hx with hx | hx
  · obtain ⟨A, B, rfl⟩ := List.append_of_mem hx
    have := List.getLastD_mem_cons (l := A) (a := a)
    exact ⟨A.getLastD a, by simp at this ⊢; tauto, hs.prev_mid⟩
  · rw [List.mem_singleton.mp hx]
    exact ⟨_, List.getLastD_mem_cons (l := L) (a := a), hs.prev_last⟩

/-- The heap determines the list between two ends. -/
theorem Seg.unique {M : List P} (hL : h.Seg a L b) (hM : h.Seg a M b) (hbL : b ∉ L) (hbM : b ∉ M) :
    L = M := by
  have hfirst := Option.some.inj (hL.next_first.symm.trans hM.next_first)
  induction L generalizing a M with
  | nil =>
    cases M with
    | nil => rfl
    | cons y M => exact absurd (by rw [show b = y from hfirst]; simp) hbM
  | cons x L ih =>
    cases M with
    | nil => exact absurd (by rw [← show x = b from hfirst]; simp) hbL
    | cons y M =>
      obtain rfl : x = y := hfirst
      have hL' := hL.tail
      have hM' := hM.tail
      rw [ih hL' hM' (fun h => hbL (by simp [h])) (fun h => hbM (by simp [h]))
        (Option.some.inj (hL'.next_first.symm.trans hM'.next_first))]

theorem Seg.append_left (hs : h.Seg a (A ++ B) b) : h.Linked (a :: A) := by
  have : a :: (A ++ B ++ [b]) = (a :: A) ++ (B ++ [b]) := by simp
  rw [Seg, this] at hs; exact hs.left

theorem Seg.append_right (hs : h.Seg a (A ++ B) b) : h.Linked (B ++ [b]) := by
  have : a :: (A ++ B ++ [b]) = (a :: A) ++ (B ++ [b]) := by simp
  rw [Seg, this] at hs; exact hs.right

/-! ### Joining, carving and grafting segments -/

/-- Two lists with linked ends are one list. -/
theorem Seg.join (hA : h.Linked (a :: A)) (hB : h.Linked (B ++ [b]))
    (hl : h.Link (A.getLastD a) (B.headD b)) : h.Seg a (A ++ B) b := by
  have key : h.Linked ((a :: A) ++ (B ++ [b])) := by
    refine List.isChain_append.mpr ⟨hA, hB, ?_⟩
    intro u hu v hv
    rw [getLast?_cons_getLastD] at hu; rw [head?_concat_headD] at hv
    cases hu; cases hv
    exact hl
  simpa [Seg] using key

/-- A list with both ends linked is a segment. -/
theorem Seg.of_linked (hL : h.Linked L) (h1 : h.Link a (L.headD b)) (h2 : h.Link (L.getLastD a) b) :
    h.Seg a L b := by
  have hA : h.Linked (a :: L) := by
    cases L with
    | nil => exact List.isChain_singleton a
    | cons x L => exact List.isChain_cons_cons.mpr ⟨h1, hL⟩
  have := Seg.join (B := []) hA (List.isChain_singleton b) h2
  rwa [List.append_nil] at this

theorem Seg.linked (hs : h.Seg a L b) : h.Linked L :=
  Linked.left (B := [b]) (List.isChain_of_isChain_cons hs)

/-- Carve `C` out of the middle of a list and put it between `c` and `d`: it is enough that the
    three new neighbourhoods are right and that nothing else changed. -/
theorem Seg.carve {c d : P} (hs : h.Seg a (A ++ C ++ B) b)
    (hd : ((a :: A) ++ (C ++ (B ++ [b]))).Nodup) (hc : c ∉ C) (hca : c ∉ a :: (A ++ B))
    (hdC : d ∉ C) (hdb : d ∉ A ++ B ++ [b]) (h1 : h'.Link c (C.headD d))
    (h2 : h'.Link (C.getLastD c) d) (h3 : h'.Link (A.getLastD a) (B.headD b))
    (hn : ∀ x, x ≠ c → x ≠ C.getLastD c → x ≠ A.getLastD a → h'.next x = h.next x)
    (hp : ∀ x, x ≠ d → x ≠ C.headD d → x ≠ B.headD b → h'.prev x = h.prev x) :
    h'.Seg c C d ∧ h'.Seg a (A ++ B) b := by
  have hA : h.Linked (a :: A) := Seg.append_left (B := C ++ B) (by simpa using hs)
  have hB : h.Linked (B ++ [b]) := hs.append_right
  have hC : h.Linked C := by
    have := Seg.linked hs; rw [List.append_assoc] at this; exact this.right.left
  obtain ⟨hdA, hd', hdisj⟩ := List.nodup_append'.mp hd
  obtain ⟨hdC', hdB, hCB⟩ := List.nodup_append'.mp hd'
  have hcC : (c :: C).Nodup := List.nodup_cons.mpr ⟨hc, hdC'⟩
  have hCd : (C ++ [d]).Nodup := by
    simpa [List.nodup_append] using ⟨hdC', fun x hx e => hdC (e ▸ hx)⟩
  have hAC : ∀ x, x ∈ a :: A → x ∉ C := fun x h1 h2 => hdisj h1 (List.mem_append_left _ h2)
  have hAB : ∀ x, x ∈ a :: A → x ∉ B ++ [b] := fun x h1 h2 => hdisj h1 (List.mem_append_right _ h2)
  refine ⟨Seg.of_linked (hC.congr ?_ ?_) h1 h2, Seg.join (hA.congr ?_ ?_) (hB.congr ?_ ?_) h3⟩
  · intro x hx
    have hxC := List.dropLast_subset _ hx
    refine hn x (fun e => hc (e ▸ hxC)) ?_ (ne_getLastD fun h => hAC x h hxC)
    rintro rfl
    refine getLastD_notMem_dropLast hcC ?_
    cases C with
    | nil => simp at hx
    | cons y C => exact List.mem_cons_of_mem _ hx
  · intro x hx
    have hxC := List.mem_of_mem_tail hx
    refine hp x (fun e => hdC (e ▸ hxC)) ?_ (ne_headD fun h => hCB hxC h)
    rintro rfl
    refine headD_notMem_tail hCd ?_
    cases C with
    | nil => simp at hx
    | cons y C => exact List.mem_append_left _ hx
  · intro x hx
    have hxA := List.dropLast_subset _ hx
    have hxC := hAC x hxA
    have hxc : x ≠ c := by
      rintro rfl
      exact hca (List.cons_subset_cons _ (List.subset_append_left _ _) hxA)
    refine hn x hxc (ne_getLastD (by simp [hxc, hxC])) ?_
    rintro rfl
    exact getLastD_notMem_dropLast hdA hx
  · intro x hx
    have hxA : x ∈ a :: A := List.mem_of_mem_tail hx
    have hxC := hAC x hxA
    have hxd : x ≠ d := by
      rintro rfl
      exact hdb (List.mem_append_left _ (List.mem_append_left _ hx))
    exact hp x hxd (ne_headD (by simp [hxd, hxC])) (ne_headD (hAB x hxA))
  · intro x hx
    have hxB := List.dropLast_subset _ hx
    have hxC : x ∉ C := fun h => hCB h hxB
    have hxc : x ≠ c := by
      rintro rfl
      rw [List.dropLast_concat] at hx
      exact hca (List.mem_cons_of_mem _ (List.mem_append_right _ hx))
    exact hn x hxc (ne_getLastD (by simp [hxc, hxC])) (ne_getLastD fun h => hAB x h hxB)
  · intro x hx
    have hxB := List.mem_of_mem_tail hx
    have hxC : x ∉ C := fun h => hCB h hxB
    have hxd : x ≠ d := by
      rintro rfl
      exact hdb (List.append_assoc A B [b] ▸ List.mem_append_right _ hxB)
    refine hp x hxd (ne_headD (by simp [hxd, hxC])) ?_
    rintro rfl
    exact headD_notMem_tail hdB hx

/-- Graft the list `C` from between `c` and `d` in front of the list `B`. -/
theorem Seg.graft {c d : P} (hC : h.Seg c C d) (hB : h.Seg a B b) (hne : C ≠ [])
    (hd : (C ++ (B ++ [b])).Nodup) (ha : a ∉ C ++ B) (hc : c ∉ C ++ B) (hdd : d ∉ C ++ (B ++ [b]))
    (h1 : h'.Link a (C.headD b)) (h2 : h'.Link (C.getLastD a) (B.headD b))
    (hn : ∀ x, x ≠ a → x ≠ C.getLastD a → x ≠ c → h'.next x = h.next x)
    (hp : ∀ x, x ≠ C.headD b → x ≠ B.headD b → x ≠ d → h'.prev x = h.prev x) :
    h'.Seg a (C ++ B) b := by
  obtain ⟨hdC, hdB, hCB⟩ := List.nodup_append'.mp hd
  have hB' : h.Linked (B ++ [b]) := Seg.append_right (A := []) hB
  have hfB := headD_mem B b
  obtain ⟨y, M, rfl⟩ := List.exists_cons_of_ne_nil hne
  have hlC : (y :: M).getLastD a ∈ y :: M := by
    rw [List.getLastD_cons]; exact List.getLastD_mem_cons (l := M) (a := y)
  have hC' : h'.Linked (y :: M) := by
    refine hC.linked.congr (fun x hx => ?_) (fun x hx => ?_)
    · have hxC := List.dropLast_subset _ hx
      refine hn x (fun e => ha (by simp only [e ▸ hxC, List.mem_append, true_or])) ?_
        (fun e => hc (by simp only [e ▸ hxC, List.mem_append, true_or]))
      rintro rfl
      exact getLastD_notMem_dropLast hdC (by rwa [List.getLastD_cons] at hx)
    · have hxC := List.mem_of_mem_tail hx
      refine hp x ?_ (fun e => hCB hxC (e ▸ hfB)) (fun e => hdd (List.mem_append_left _ (e ▸ hxC)))
      rintro rfl
      exact (List.nodup_cons.mp hdC).1 hx
  refine Seg.join (List.isChain_cons_cons.mpr ⟨h1, hC'⟩)
    (hB'.congr (fun x hx => ?_) (fun x hx => ?_)) h2
  · have hxB : x ∈ B := by rwa [List.dropLast_concat] at hx
    exact hn x (fun e => ha (List.mem_append_right _ (e ▸ hxB)))
      (fun e => hCB (e ▸ hlC) (List.mem_append_left _ hxB))
      (fun e => hc (List.mem_append_right _ (e ▸ hxB)))
  · have hxB := List.mem_of_mem_tail hx
    refine hp x (fun e => hCB (by simp [e]) hxB) ?_
      (fun e => hdd (List.mem_append_right _ (e ▸ hxB)))
    rintro rfl; exact headD_notMem_tail hdB hx

/-! ### Relinking -/

variable [DecidableEq P]

/-- Make `y` the successor of `x`. -/
def relink (h : Heap P D) (x y : P) : Heap P D := (h.withNext x y).withPrev y x

@[simp] theorem live_relink : (h.relink x y).Live p ↔ h.Live p := by simp [relink]

@[simp] theorem val_relink : (h.relink x y).val p = h.val p := by simp [relink]

theorem next_relink (hx : h.Live x) :
    (h.relink x y).next p = if p = x then some y else h.next p := by
  simp [relink, next_withNext hx]

theorem prev_relink (hy : h.Live y) :
    (h.relink x y).prev p = if p = y then some x else h.prev p := by
  rw [relink, prev_withPrev (by simpa using hy), prev_withNext]

theorem next_relink_ne (hp : p ≠ x) : (h.relink x y).next p = h.next p := by
  simp [relink, withNext, hp]

theorem prev_relink_ne (hp : p ≠ y) : (h.relink x y).prev p = h.prev p := by
  rw [relink, withPrev, prev_put, if_neg hp, prev_withNext]

theorem link_relink (hx : h.Live x) (hy : h.Live y) : (h.relink x y).Link x y :=
  ⟨by rw [next_relink hx, if_pos rfl], by rw [prev_relink hy, if_pos rfl]⟩

/-- A relink of `x` and `y` leaves a list alone that does not continue after `x` nor before `y`. -/
theorem Linked.relink_frame (hl : h.Linked l) (hx : x ∉ l.dropLast) (hy : y ∉ l.tail) :
    (h.relink x y).Linked l :=
  hl.congr (fun _ hz => next_relink_ne (fun e => hx (e ▸ hz)))
    (fun _ hz => prev_relink_ne (fun e => hy (e ▸ hz)))

/-- A relink of the last pointer of `A` and the first of `B` joins the two lists. -/
theorem Linked.relink_join (hA : h.Linked A) (hB : h.Linked B) (hx : A.getLast? = some x)
    (hy : B.head? = some y) (hxl : h.Live x) (hyl : h.Live y) (hxA : x ∉ A.dropLast)
    (hyA : y ∉ A.tail) (hxB : x ∉ B.dropLast) (hyB : y ∉ B.tail) :
    (h.relink x y).Linked (A ++ B) := by
  refine List.isChain_append.mpr ⟨hA.relink_frame hxA hyA, hB.relink_frame hxB hyB, ?_⟩
  intro u hu v hv
  rw [hx] at hu; rw [hy] at hv
  cases hu; cases hv
  exact link_relink hxl hyl

/-- Releasing a cell or changing one not on the list leaves the list alone. -/
theorem Linked.put_frame (hl : h.Linked l) (hp : p ∉ l) (c : Option (Cell P D)) :
    (h.put p c).Linked l := by
  refine hl.congr (fun z hz => ?_) (fun z hz => ?_)
  · rw [next_put, if_neg]; rintro rfl; exact hp (List.dropLast_subset _ hz)
  · rw [prev_put, if_neg]; rintro rfl; exact hp (List.mem_of_mem_tail hz)

theorem Linked.withPrev_frame (hl : h.Linked l) (hp : p ∉ l.tail) : (h.withPrev p q).Linked l := by
  refine hl.congr (fun _ _ => next_withPrev) (fun z hz => ?_)
  rw [Heap.withPrev, prev_put, if_neg]; rintro rfl; exact hp hz

theorem Linked.withNext_frame (hl : h.Linked l) (hp : p ∉ l.dropLast) :
    (h.withNext p q).Linked l := by
  refine hl.congr (fun z hz => ?_) (fun _ _ => prev_withNext)
  rw [Heap.withNext, next_put, if_neg]; rintro rfl; exact hp hz

theorem Linked.withVal (hl : h.Linked l) (d : D) : (h.withVal p d).Linked l :=
  hl.congr (fun _ _ => next_withVal) (fun _ _ => prev_withVal)

/-- `h'` differs from `h` at most in `next` at the pointers `N` and in `prev` at the pointers
    `Q`. -/
structure Frame (N Q : List P) (h h' : Heap P D) : Prop where
  val : ∀ x, h'.val x = h.val x
  next : ∀ x, x ∉ N → h'.next x = h.next x
  prev : ∀ x, x ∉ Q → h'.prev x = h.prev x

section Frame
variable {N Q : List P} {h'' : Heap P D}

omit [DecidableEq P] in
theorem Frame.live (hf : Frame N Q h h') : h'.Live x ↔ h.Live x := by
  rw [live_iff_val, live_iff_val, hf.val]

omit [DecidableEq P] in
/-- A list apart from the pointers a change touches stays as it is. -/
theorem Frame.linked (hf : Frame N Q h h') (hl : h.Linked l) (hN : l.Disjoint N)
    (hQ : l.Disjoint Q) :
    h'.Linked l :=
  hl.congr (fun x hx => hf.next x (hN (List.dropLast_subset _ hx)))
    (fun x hx => hf.prev x (hQ (List.mem_of_mem_tail hx)))

theorem frame_relink (hx : x ∈ N) (hy : y ∈ Q) : Frame N Q h (h.relink x y) :=
  ⟨fun _ => val_relink, fun _ hz => next_relink_ne (fun e => hz (e ▸ hx)),
    fun _ hz => prev_relink_ne (fun e => hz (e ▸ hy))⟩

theorem frame_withPrev (hx : x ∈ Q) : Frame N Q h (h.withPrev x y) :=
  ⟨fun _ => val_withPrev, fun _ _ => next_withPrev, fun _ hz => by
    rw [withPrev, prev_put, if_neg (fun e => hz (by rw [e]; exact hx))]⟩

theorem frame_withNext (hx : x ∈ N) : Frame N Q h (h.withNext x y) :=
  ⟨fun _ => val_withNext, fun _ hz => by
    rw [withNext, next_put, if_neg (fun e => hz (by rw [e]; exact hx))], fun _ _ => prev_withNext⟩

omit [DecidableEq P] in
theorem Frame.trans (h1 : Frame N Q h h') (h2 : Frame N Q h' h'') : Frame N Q h h'' :=
  ⟨fun x => (h2.val x).trans (h1.val x), fun x hx => (h2.next x hx).trans (h1.next x hx),
    fun x hx => (h2.prev x hx).trans (h1.prev x hx)⟩

end Frame

/-! ### Taking a cell out and putting one in -/

/-- Unlink `n`: its neighbours become each other's. Works for a ring as well. -/
theorem Seg.unlink (hs : h.Seg a (A ++ n :: B) b) (hd₁ : (a :: (A ++ n :: B)).Nodup)
    (hd₂ : (A ++ n :: B ++ [b]).Nodup) :
    (h.relink (A.getLastD a) (B.headD b)).Seg a (A ++ B) b := by
  have hA : h.Linked (a :: A) := hs.append_left
  have hB : h.Linked (B ++ [b]) :=
    Seg.append_right (A := A ++ [n]) (by simpa using hs)
  have hx := getLast?_cons_getLastD a A
  have hy := head?_concat_headD B b
  have hxm : A.getLastD a ∈ a :: A := List.getLastD_mem_cons (l := A) (a := a)
  have hym : B.headD b ∈ B ++ [b] := headD_mem B b
  have hdA : (a :: A).Nodup := by
    rw [← List.cons_append] at hd₁; exact (List.nodup_append.mp hd₁).1
  have hdB : (B ++ [b]).Nodup := by
    rw [List.append_assoc] at hd₂
    exact (List.nodup_cons.mp (List.nodup_append.mp hd₂).2.1).2
  have key := hA.relink_join hB hx hy hs.live_getLastD hs.live_next_mid
    (getLastD_notMem_dropLast hdA) ?_ ?_ (headD_notMem_tail hdB)
  · simpa [Seg] using key
  · -- the new successor is not among the pointers after `a` on the left
    intro hc
    have hc' : B.headD b ∈ A := by simpa using hc
    rw [List.append_assoc, List.nodup_append] at hd₂
    exact hd₂.2.2 _ hc' _ (by simp at hym ⊢; tauto) rfl
  · intro hc
    have hc' : A.getLastD a ∈ B := by simpa using hc
    rw [← List.cons_append, List.nodup_append] at hd₁
    exact hd₁.2.2 _ hxm _ (List.mem_cons_of_mem _ hc') rfl

/-- Link `n`, which is on no list, between the last pointer of `A` and the first of `B`. -/
theorem Seg.insert (hs : h.Seg a (A ++ B) b) (hd₁ : (a :: (A ++ B)).Nodup)
    (hd₂ : (A ++ B ++ [b]).Nodup) (hn : h.Live n) (hna : n ≠ a) (hnb : n ≠ b) (hnL : n ∉ A ++ B) :
    ((h.relink (A.getLastD a) n).relink n (B.headD b)).Seg a (A ++ n :: B) b := by
  have hA : h.Linked (a :: A) := hs.append_left
  have hB : h.Linked (B ++ [b]) := hs.append_right
  have hx := getLast?_cons_getLastD a A
  have hy := head?_concat_headD B b
  have hxm : A.getLastD a ∈ a :: A := List.getLastD_mem_cons (l := A) (a := a)
  have hym : B.headD b ∈ B ++ [b] := headD_mem B b
  have hdA : (a :: A).Nodup := by
    rw [← List.cons_append] at hd₁; exact (List.nodup_append.mp hd₁).1
  have hdB : (B ++ [b]).Nodup := by
    rw [List.append_assoc] at hd₂; exact (List.nodup_append.mp hd₂).2.1
  have hny : n ≠ B.headD b := by
    rw [List.mem_append, not_or] at hnL
    exact ne_headD (by simp [hnL.2, hnb])
  -- first `… x n`, then `n y …`
  have h1 : (h.relink (A.getLastD a) n).Linked ((a :: A) ++ [n]) :=
    hA.relink_join (List.isChain_singleton n) hx rfl hs.live_getLastD hn
      (getLastD_notMem_dropLast hdA) (by simp at hnL ⊢; tauto) (by simp) (by simp)
  have h2 : (h.relink (A.getLastD a) n).Linked (B ++ [b]) := by
    refine hB.relink_frame ?_ ?_
    · intro hc
      have hc' : A.getLastD a ∈ B := by simpa using hc
      rw [← List.cons_append, List.nodup_append] at hd₁
      exact hd₁.2.2 _ hxm _ hc' rfl
    · intro hc
      have := List.mem_of_mem_tail hc
      simp at this hnL; tauto
  have key := h1.relink_join h2 (x := n) List.getLast?_concat hy (by simpa using hn)
    (by simpa using hs.live_headD)
    ?_ ?_ ?_ (headD_notMem_tail hdB)
  · simpa [Seg] using key
  · rw [List.dropLast_concat]; simp at hnL ⊢; tauto
  · intro hc
    have hc' : B.headD b ∈ A ∨ B.headD b = n := by simpa using hc
    rcases hc' with hc' | hc'
    · rw [List.append_assoc, List.nodup_append] at hd₂
      exact hd₂.2.2 _ hc' _ hym rfl
    · exact hny hc'.symm
  · simp at hnL ⊢; tauto

/-- The heap after `n` between `p` and `q` was unlinked and its own links set to `null`. -/
def detach (null : P) (h : Heap P D) (p n q : P) : Heap P D :=
  ((h.relink p q).withPrev n null).withNext n null

/-- Detaching `n` takes it off its list, which may be a ring. -/
theorem Seg.detach (hs : h.Seg a (A ++ n :: B) b) (hd₁ : (a :: (A ++ n :: B)).Nodup)
    (hd₂ : (A ++ n :: B ++ [b]).Nodup) (null : P) :
    (h.detach null (A.getLastD a) n (B.headD b)).Seg a (A ++ B) b ∧
      Frame (a :: (A ++ n :: B)) (A ++ n :: B ++ [b]) h
      (h.detach null (A.getLastD a) n (B.headD b)) := by
  have hp := List.getLastD_mem_cons (l := A) (a := a)
  have hq := headD_mem B b
  refine ⟨?_, ?_⟩
  · have hu := hs.unlink hd₁ hd₂
    refine Linked.withNext_frame (Linked.withPrev_frame hu ?_) ?_
    · rw [List.tail_cons]
      intro hc
      rw [List.append_assoc, List.cons_append, List.nodup_middle,
        List.nodup_cons, ← List.append_assoc] at hd₂
      exact hd₂.1 hc
    · rw [← List.cons_append, List.dropLast_concat]
      intro hc
      rw [← List.cons_append, List.nodup_middle, List.nodup_cons, List.cons_append] at hd₁
      exact hd₁.1 hc
  · have hn : n ∈ A ++ n :: B := by simp
    have hlink : Frame (a :: (A ++ n :: B)) (A ++ n :: B ++ [b]) h
      (h.relink (A.getLastD a) (B.headD b)) :=
      frame_relink (by simp at hp ⊢; tauto) (by simp at hq ⊢; tauto)
    refine hlink.trans ?_
    exact (frame_withPrev (List.mem_append_left _ hn)).trans
      (frame_withNext (List.mem_cons_of_mem _ hn))

/-! ### Rings -/

/-- The ring `R` around the sentinel `a`. -/
structure Ring (h : Heap P D) (a : P) (R : List P) : Prop where
  seg : h.Seg a R a
  nodup : (a :: R).Nodup

omit [DecidableEq P] in
theorem Ring.nodup_right (hr : h.Ring a L) : (L ++ [a]).Nodup :=
  List.perm_append_comm.nodup_iff.mp (by simpa using hr.nodup)

omit [DecidableEq P] in
theorem Ring.live (hr : h.Ring a L) (hx : x ∈ a :: L) : h.Live x :=
  hr.seg.live (by simp only [List.mem_cons, List.mem_append] at hx ⊢; tauto)

omit [DecidableEq P] in
/-- A ring apart from the pointers a change touches stays as it is. -/
theorem Ring.frame {N Q : List P} (hr : h.Ring a L) (hf : Frame N Q h h') (hN : (a :: L).Disjoint N)
    (hQ : (a :: L).Disjoint Q) : h'.Ring a L := by
  have hmem : ∀ z, z ∈ a :: (L ++ [a]) → z ∈ a :: L := fun z hz => by
    simp only [List.mem_cons, List.mem_append] at hz ⊢; tauto
  exact ⟨hf.linked hr.seg (fun z hz => hN (hmem z hz)) (fun z hz => hQ (hmem z hz)), hr.nodup⟩

theorem Ring.put_frame (hr : h.Ring a L) (hp : p ∉ a :: L) (c : Option (Cell P D)) :
    (h.put p c).Ring a L :=
  ⟨Linked.put_frame hr.seg (by simp only [List.mem_cons, List.mem_append] at hp ⊢; tauto) c,
    hr.nodup⟩

theorem Ring.detach (hr : h.Ring a (A ++ n :: B)) (null : P) :
    (h.detach null (A.getLastD a) n (B.headD a)).Ring a (A ++ B) ∧
      Frame (a :: (A ++ n :: B)) (A ++ n :: B ++ [a]) h
      (h.detach null (A.getLastD a) n (B.headD a)) := by
  obtain ⟨hs, hf⟩ := hr.seg.detach hr.nodup hr.nodup_right null
  refine ⟨⟨hs, ?_⟩, hf⟩
  have hd := hr.nodup
  rw [← List.cons_append, List.nodup_middle] at hd
  exact (List.nodup_cons.mp hd).2

/-- Link `n`, which is on no list, in front of a ring. -/
theorem Ring.pushFront (hr : h.Ring a L) (hn : h.Live n) (hnL : n ∉ a :: L) :
    ((h.relink a n).relink n (L.headD a)).Ring a (n :: L) ∧
      Frame (a :: n :: L) (n :: L ++ [a]) h ((h.relink a n).relink n (L.headD a)) := by
  obtain ⟨hna, hn'⟩ : n ≠ a ∧ n ∉ L := by simpa using hnL
  have hq := headD_mem L a
  refine ⟨⟨Seg.insert (A := []) hr.seg hr.nodup hr.nodup_right hn hna hna hn', ?_⟩, ?_⟩
  · exact (List.Perm.swap a n L).nodup_iff.mp (List.nodup_cons.mpr ⟨hnL, hr.nodup⟩)
  · exact (frame_relink (by simp) (by simp)).trans (frame_relink (by simp) (by simp at hq ⊢; tauto))

omit [DecidableEq P] in
/-- The neighbours of a node of a ring are the same pointer only if the node is alone. -/
theorem Ring.neighbours_eq (hr : h.Ring a (A ++ n :: B)) :
    A.getLastD a = B.headD a ↔ A = [] ∧ B = [] := by
  constructor
  · intro he
    have hd := hr.nodup
    have hl := List.getLastD_mem_cons (l := A) (a := a)
    have hf := headD_mem B a
    rw [← List.cons_append, List.nodup_append'] at hd
    rw [List.mem_append, List.mem_singleton] at hf
    have hfB : B.headD a ∉ B := fun hc => hd.2.2 (he ▸ hl) (List.mem_cons_of_mem _ hc)
    have hB : B = [] := by
      cases B with
      | nil => rfl
      | cons x B => exact absurd List.mem_cons_self hfB
    subst hB
    refine ⟨?_, rfl⟩
    rcases A.eq_nil_or_concat with rfl | ⟨M, z, rfl⟩
    · rfl
    · rw [List.concat_eq_append, getLastD_append] at he
      have hz : z = a := he
      exact absurd (by simp [hz]) (List.nodup_cons.mp hd.1).1
  · rintro ⟨rfl, rfl⟩
    rfl

omit [DecidableEq P] in
/-- A sentinel linked to itself. -/
theorem Ring.empty (hn : h.next a = some a) (hp : h.prev a = some a) : h.Ring a [] :=
  ⟨List.isChain_pair.mpr ⟨hn, hp⟩, List.nodup_singleton a⟩

end Heap

end Schemes
