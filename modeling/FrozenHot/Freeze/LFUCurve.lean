import FrozenHot.Freeze.LFUPlain
import Mathlib.Data.Rat.Defs

/-! `get_curve` of `LFU_FHCache`: it walks the classes from the most frequent one, as if they were
    frozen one after the other, and notes the hit and miss ratios.

    While the curve is taken `find` does not count up and `insert` is refused, so that the classes
    stay as they are. What other threads do is in the `Probes`: whether to stop, and the figures.
    The limits `m_maxSize * i * 1.0/100 * 2` are exact as numbers. -/

namespace FrozenHot
open Schemes

/-- The figures of `print_step`, and whether they add up to more than 0.99. -/
structure Figures (D : Type) where
  FC_hit : D
  miss : D
  enough : Bool

/-- What `get_curve` is told. In pass `i`, `stop i 0` is `should_stop` at the test of the outer
    loop, `stop i (j + 1)` at test `j` of the inner loop, and `step i j` says whether the figures of
    `get_step` there add up to more than 0.99. -/
structure Probes (D : Type) where
  stop : ℕ → ℕ → Bool
  step : ℕ → ℕ → Bool
  print : ℕ → Figures D

/-- `curve_data_node`. -/
structure CurvePoint (S D : Type) where
  size_ : S
  FC_hit_ : D
  miss_ : D

/-- A walk around the ring of a class, as it is printed: the threshold and the counts before and
    after. -/
structure Walk where
  out_node : Ptr
  m_threshold : ℤ
  last_count : ℕ
  FC_size : ℕ

/-- Where the walk is, with the walks so far. -/
structure Place where
  FC_size : ℕ
  out_node : Ptr
  m_threshold : ℤ
  walks : List Walk

namespace LFUShard
variable {α D : Type}

/-- The loop around a ring. -/
def countRing (rings : Heap FrePtr ℕ) (out_node : Ptr) : ℕ → FrePtr → ℕ → Except Fault ℕ
  | 0, _, _ => throw .diverge
  | fuel + 1, in_node, FC_size =>
    if in_node = .list out_node then return FC_size
    else do
      let next ← rings.getNext in_node
      countRing rings out_node fuel next (FC_size + 1)

/-- The inner loop of pass `i`. -/
def curveWalk (σ : LFUShard α) (probes : Probes D) (i : ℕ) :
    (fuel j : ℕ) → Place → Except Fault Place
  | 0, _, _ => throw .diverge
  | fuel + 1, j, p =>
    if 50 * p.FC_size ≤ σ.n * i ∧ probes.stop i (j + 1) = false then do
      let in_node ← σ.rings.getNext (.list p.out_node)
      let FC_size ← countRing σ.rings p.out_node (σ.fresh + 1) in_node p.FC_size
      let walks := p.walks ++ [⟨p.out_node, p.m_threshold, p.FC_size, FC_size⟩]
      let out_node ← σ.classes.getNext p.out_node
      if out_node = .m_tail then return ⟨FC_size, out_node, p.m_threshold, walks⟩
      else
        let m_threshold ← σ.classes.getVal out_node
        if probes.step i j then return ⟨FC_size, out_node, m_threshold, walks⟩
        else curveWalk σ probes i fuel (j + 1) ⟨FC_size, out_node, m_threshold, walks⟩
    else return p

/-- The outer loop from pass `i` on, with `left` passes to go. -/
def curvePasses (σ : LFUShard α) (probes : Probes D) :
    (left i : ℕ) → Place → List (CurvePoint ℚ D) →
    Except Fault (Place × List (CurvePoint ℚ D))
  | 0, _, p, curve => return (p, curve)
  | left + 1, i, p, curve =>
    if probes.stop i 0 then return (p, curve)
    else do
      let p ← curveWalk σ probes i (σ.fresh + 1) 0 p
      if 50 * p.FC_size > σ.n * (i + 1) then curvePasses σ probes left (i + 1) p curve
      else
        let f := probes.print i
        if f.enough then return (p, curve ++ [⟨1, f.FC_hit, f.miss⟩])
        else
          curvePasses σ probes left (i + 1) p
            (curve ++ [⟨(p.FC_size : ℚ) / (σ.n : ℚ), f.FC_hit, f.miss⟩])

/-- `get_curve`: the walks, the curve, and the shard afterwards. -/
def get_curve (σ : LFUShard α) (probes : Probes D) (curve_container : List (CurvePoint ℚ D)) :
    Except Fault (List Walk × List (CurvePoint ℚ D) × LFUShard α) := do
  assert (σ.tier_no_insert = false)
  let out_node ← σ.classes.getNext .m_head
  let m_threshold ← σ.classes.getVal out_node
  assert (curve_container.length = 0)
  let r ← curvePasses { σ with curve_flag := true } probes 44 1 ⟨0, out_node, m_threshold, []⟩ []
  return (r.1.walks, r.2, { σ with curve_flag := false, m_threshold := 0 })

/-! ### The inner loop -/

variable {σ : LFUShard α} {probes : Probes D} {A B L : List FreClass} {c : FreClass} {p p' : Place}
    {i j fuel n : ℕ}
variable {H : List (FHCall α × FHResp α)}

theorem countRing_ok {R : List (FrePtr × ℕ)} (R' : List (FrePtr × ℕ)) {a : Ptr}
    (hr : σ.rings.Ring (.list a) ((R ++ R').map Prod.fst)) (hnode : ∀ x ∈ R', x.1.IsNode)
    (hf : R'.length < fuel) (count : ℕ) :
    countRing σ.rings a fuel ((R'.map Prod.fst).headD (.list a)) count =
    .ok (count + R'.length) := by
  induction R' generalizing R fuel count with
  | nil =>
    obtain ⟨g, rfl⟩ := Nat.exists_eq_add_one_of_ne_zero (Nat.ne_of_gt hf)
    simp [countRing]
  | cons x R' ih =>
    obtain ⟨g, rfl⟩ := Nat.exists_eq_add_one_of_ne_zero (Nat.ne_of_gt (Nat.zero_lt_of_lt hf))
    have hne : x.1 ≠ .list a := (hnode x (by simp)).ne_list a
    have hnext : σ.rings.next x.1 = some ((R'.map Prod.fst).headD (.list a)) := hr.seg.next_map
    rw [List.map_cons, List.headD_cons, countRing, if_neg hne, Heap.getNext_eq hnext, ok_bind,
      ih (R := R ++ [x]) (by simpa using hr) (fun y hy => hnode y (by simp [hy]))
      (Nat.lt_of_succ_lt_succ hf), List.length_cons, Nat.add_assoc, Nat.add_comm 1]

/-- The ring of a class is counted as a whole. -/
theorem countRing_class (hr : LFUCore.Rep true σ.toLFUCore [] L) (hc : c ∈ L) (count : ℕ) :
    (σ.rings.getNext (.list c.node) >>= fun in_node => countRing σ.rings c.node (σ.fresh + 1)
      in_node count) =
      .ok (count + c.ring.length) := by
  have hc' : c ∈ [] ++ L := hc
  have hring := hr.rings.ring c hc'
  rw [Heap.getNext_eq hring.seg.next_first, ok_bind]
  exact countRing_ok (R := []) c.ring hring
    (fun x hx => hr.rings.isNode c hc' _ (List.mem_map_of_mem hx))
    (Nat.lt_succ_of_le (hr.ring_length_le hc')) count

/-- The number of keys of some classes. -/
def keyCount (L : List FreClass) : ℕ := (L.flatMap FreClass.keys).length

theorem keyCount_append (A B : List FreClass) : keyCount (A ++ B) = keyCount A + keyCount B := by
  rw [keyCount, List.flatMap_append, List.length_append]
  rfl

theorem keyCount_single (c : FreClass) : keyCount [c] = c.ring.length := by
  simp [keyCount, FreClass.keys]

/-- The classes `A` have been walked and `B` are to come; every walk was around a class. -/
structure At (A B : List FreClass) (p : Place) : Prop where
  size : p.FC_size = keyCount A
  out : p.out_node = (B.map FreClass.node).headD .m_tail
  walks : ∀ w ∈ p.walks, w.out_node ∈ (A ++ B).map FreClass.node ∧ w.FC_size ≤ keyCount (A ++ B)

/-- No one interferes in pass `i`. -/
def Quiet (probes : Probes D) (i : ℕ) : Prop :=
  (∀ j, probes.stop i j = false ∧ probes.step i j = false) ∧ (probes.print i).enough = false

/-- The place after the walk of another class, whatever the threshold is then. -/
theorem At.walk (hp : At A (c :: B) p) (m_threshold : ℤ) : At (A ++ [c]) B
    ⟨p.FC_size + c.ring.length, (B.map FreClass.node).headD .m_tail, m_threshold,
      p.walks ++ [⟨c.node, p.m_threshold, p.FC_size, p.FC_size + c.ring.length⟩]⟩ := by
  have hsize : p.FC_size + c.ring.length = keyCount (A ++ [c]) := by
    rw [hp.size, keyCount_append, keyCount_single]
  have hsplit : A ++ [c] ++ B = A ++ c :: B := by simp
  refine ⟨hsize, rfl, fun w hw => ?_⟩
  rw [hsplit]
  rcases List.mem_append.mp hw with hw | hw
  · exact hp.walks w hw
  · rw [List.mem_singleton.mp hw]
    refine ⟨List.mem_map_of_mem (by simp), ?_⟩
    rw [← hsplit, keyCount_append (A ++ [c]), ← hsize]
    exact Nat.le_add_right _ _

/-- The inner loop with classes to come, or with nothing to do. -/
theorem curveWalk_ok (probes : Probes D) (hr : LFUCore.Rep true σ.toLFUCore [] (A ++ B))
    (hp : At A B p) (hf : B.length < fuel)
    (hB : B = [] → ¬ (50 * p.FC_size ≤ σ.n * i ∧ probes.stop i (j + 1) = false)) :
    ∃ p' C E, B = C ++ E ∧ At (A ++ C) E p' ∧ curveWalk σ probes i fuel j p = .ok p' ∧
      (E = [] → C ≠ [] → 50 * keyCount (A ++ B).dropLast ≤ σ.n * i) ∧
      (Quiet probes i → E = [] ∨ σ.n * i < 50 * p'.FC_size) := by
  induction B generalizing A p fuel j with
  | nil =>
    obtain ⟨g, rfl⟩ := Nat.exists_eq_add_one_of_ne_zero (Nat.ne_of_gt hf)
    exact ⟨p, [], [], rfl, by simpa using hp, if_neg (hB rfl), fun _ h => absurd rfl h,
      fun _ => Or.inl rfl⟩
  | cons c B ih =>
    obtain ⟨g, rfl⟩ := Nat.exists_eq_add_one_of_ne_zero (Nat.ne_of_gt (Nat.zero_lt_of_lt hf))
    by_cases htest : 50 * p.FC_size ≤ σ.n * i ∧ probes.stop i (j + 1) = false
    · have hout : p.out_node = c.node := hp.out
      have hnext : σ.classes.next c.node = some ((B.map FreClass.node).headD .m_tail) :=
        hr.lists.main.seg.next_map
      obtain ⟨in_node, hin, hcount⟩ :=
        bind_eq_ok.mp (countRing_class hr (show c ∈ A ++ c :: B by simp) p.FC_size)
      rw [curveWalk, if_pos htest, hout]
      simp only [hin, hcount, ok_bind, Heap.getNext_eq hnext]
      cases B with
      | nil =>
        refine ⟨_, [c], [], rfl, hp.walk p.m_threshold, by simp, fun _ _ => ?_, fun _ => Or.inl rfl⟩
        rw [List.dropLast_concat, ← hp.size]
        exact htest.1
      | cons d B =>
        have hd : d.node ≠ .m_tail := hr.rings.class_ne d (by simp)
        have hval := hr.lists.fre d (by simp)
        simp only [List.map_cons, List.headD_cons, if_neg hd, Heap.getVal_eq hval, ok_bind]
        by_cases hstep : probes.step i j = true
        · refine ⟨_, [c], d :: B, rfl, hp.walk d.fre, by simp [hstep], fun h => absurd h (by simp),
            fun hq => ?_⟩
          rw [(hq.1 j).2] at hstep
          cases hstep
        · obtain ⟨p', C, E, hBE, hat', hrun, hlast, hquiet⟩ :=
            ih (A := A ++ [c]) (by simpa using hr) (hp.walk d.fre)
            (Nat.lt_of_succ_lt_succ hf) (j := j + 1) (fun h => absurd h (by simp))
          refine ⟨p', c :: C, E, by rw [hBE]; rfl, by simpa using hat', by simpa [hstep] using hrun,
            fun hE _ => ?_, hquiet⟩
          have hC : C ≠ [] := by
            rintro rfl
            rw [hE] at hBE
            cases hBE
          simpa using hlast hE hC
    · refine ⟨p, [], c :: B, rfl, by simpa using hp, if_neg htest, fun h => absurd h (by simp),
        fun hq => Or.inr ?_⟩
      rw [(hq.1 (j + 1)).1] at htest
      simpa using htest

/-- At the end of the list the inner loop walks the `list` of `m_tail`, which is not a ring. -/
theorem curveWalk_tail (hr : LFUCore.Rep true σ.toLFUCore [] L) (hp : At L [] p)
    (htest : 50 * p.FC_size ≤ σ.n * i ∧ probes.stop i (j + 1) = false) :
    curveWalk σ probes i (fuel + 1) j p = .error .deref := by
  have hout : p.out_node = .m_tail := hp.out
  have hnull : σ.rings.next .null = none := by
    cases h : σ.rings.next .null with
    | none => rfl
    | some q => exact absurd (Heap.live_of_next h) hr.rings.tail.null
  rw [curveWalk, if_pos htest, hout, Heap.getNext_eq hr.rings.tail.next]
  simp [countRing, Heap.getNext_def, hnull]

/-! ### The outer loop -/

/-- The last class cannot be walked before the last pass, or the classes hold too many keys for
    another walk. -/
def Guarded (n : ℕ) (L : List FreClass) : Prop :=
  43 * n < 50 * keyCount L.dropLast ∨ 44 * n < 50 * keyCount L

theorem curvePasses_ok (probes : Probes D) (left : ℕ)
    (hr : LFUCore.Rep true σ.toLFUCore [] (A ++ B)) (hp : At A B p) (hg : Guarded σ.n (A ++ B))
    (hi : i + 1 + left = 45) (hB : B = [] → 50 * keyCount (A ++ B).dropLast ≤ σ.n * i)
    (curve : List (CurvePoint ℚ D)) :
    ∃ p' A' B' curve', A' ++ B' = A ++ B ∧ At A' B' p' ∧ curvePasses σ probes left (i + 1) p curve =
    .ok (p', curve') := by
  induction left generalizing A B p i curve with
  | zero => exact ⟨p, A, B, curve, rfl, hp, rfl⟩
  | succ left ih =>
    rw [curvePasses]
    by_cases hstop : probes.stop (i + 1) 0 = true
    · exact ⟨p, A, B, curve, rfl, hp, if_pos hstop⟩
    · rw [if_neg hstop]
      have hle : σ.n * (i + 1) ≤ σ.n * 44 := Nat.mul_le_mul_left _ (by omega)
      have hidle : B = [] → ¬ (50 * p.FC_size ≤ σ.n * (i + 1) ∧
          probes.stop (i + 1) (0 + 1) = false) := by
        rintro rfl ⟨h, -⟩
        have hlast := hB rfl
        rw [hp.size] at h
        rw [List.append_nil] at hg hlast
        rcases hg with hg | hg
        · -- the last class was walked in a pass before 44
          have : σ.n * i ≤ σ.n * 43 := Nat.mul_le_mul_left _ (by omega)
          omega
        · omega
      have hlen := hr.length_le
      rw [List.nil_append, List.length_append] at hlen
      obtain ⟨p', C, E, rfl, hat, hrun, hlast, -⟩ := curveWalk_ok probes (j := 0) hr hp
        (Nat.lt_succ_of_le (show B.length ≤ σ.fresh by omega)) hidle
      rw [hrun, ok_bind]
      have hsplit : A ++ C ++ E = A ++ (C ++ E) := List.append_assoc A C E
      have hB' : E = [] → 50 * keyCount (A ++ C ++ E).dropLast ≤ σ.n * (i + 1) := by
        intro hE
        rw [hsplit]
        by_cases hC : C = []
        · have := hB (by rw [hC, hE]; rfl)
          have : σ.n * i ≤ σ.n * (i + 1) := Nat.mul_le_mul_left _ (Nat.le_succ i)
          omega
        · exact hlast hE hC
      have hnext : ∀ curve : List (CurvePoint ℚ D), ∃ p'' A' B' curve', A' ++ B' = A ++ (C ++ E) ∧
          At A' B' p'' ∧
          curvePasses σ probes left (i + 1 + 1) p' curve = .ok (p'', curve') := by
        intro curve
        obtain ⟨p'', A', B', curve', h1, h2, h3⟩ :=
          ih (A := A ++ C) (B := E) (hsplit ▸ hr) hat (hsplit ▸ hg) (by omega) hB' curve
        exact ⟨p'', A', B', curve', h1.trans hsplit, h2, h3⟩
      dsimp only
      split_ifs
      · exact hnext _
      · exact ⟨p', A ++ C, E, _, hsplit, hat, rfl⟩
      · exact hnext _

/-- With no one interfering, an unguarded walk gets to `m_tail`. -/
theorem curvePasses_fails (left : ℕ) (hr : LFUCore.Rep true σ.toLFUCore [] (A ++ B)) (hp : At A B p)
    (hg : ¬ Guarded σ.n (A ++ B)) (hq : ∀ i, Quiet probes i) (hi : i + left = 45) (hleft : 0 < left)
    (hB : B = [] ∨ i ≤ 43) (curve : List (CurvePoint ℚ D)) :
    curvePasses σ probes left i p curve = .error .deref := by
  induction left generalizing A B p i curve with
  | zero => omega
  | succ left ih =>
    rw [Guarded, not_or, not_lt, not_lt] at hg
    rw [curvePasses, if_neg (by rw [((hq i).1 0).1]; simp)]
    by_cases hwalk : B = [] ∧ 50 * p.FC_size ≤ σ.n * i
    · -- the walk is at `m_tail` and another class is wanted
      obtain ⟨rfl, htest⟩ := hwalk
      rw [List.append_nil] at hr
      rw [curveWalk_tail hr hp ⟨htest, ((hq i).1 1).1⟩]
      rfl
    · have hlen := hr.length_le
      rw [List.nil_append, List.length_append] at hlen
      obtain ⟨p', C, E, rfl, hat, hrun, -, hquiet⟩ := curveWalk_ok probes (i := i) (j := 0) hr hp
        (Nat.lt_succ_of_le (show B.length ≤ σ.fresh by omega)) (fun h hc => hwalk ⟨h, hc.1⟩)
      rw [hrun, ok_bind]
      have hsplit : A ++ C ++ E = A ++ (C ++ E) := List.append_assoc A C E
      -- in pass 43 all classes are walked at the latest
      have hE : E = [] ∨ i + 1 ≤ 43 := by
        rcases hB with hB | hB
        · exact Or.inl (List.append_eq_nil_iff.mp hB).2
        · by_contra hcon
          obtain ⟨hne, h43⟩ := not_or.mp hcon
          obtain rfl : i = 43 := by omega
          have hlt := (hquiet (hq 43)).resolve_left hne
          have hle := hg.1
          rw [← hsplit, List.dropLast_append_of_ne_nil hne, keyCount_append (A ++ C), ← hat.size]
            at hle
          omega
      have hi44 : 0 < left := by
        rcases hB with hB | hB
        · obtain ⟨rfl, rfl⟩ := List.append_eq_nil_iff.mp hB
          by_contra h0
          obtain rfl : i = 44 := by omega
          refine hwalk ⟨rfl, ?_⟩
          rw [hp.size, Nat.mul_comm σ.n]
          simpa using hg.2
        · omega
      have hnext : ∀ curve : List (CurvePoint ℚ D), curvePasses σ probes left (i + 1) p' curve =
          .error .deref := fun curve =>
        ih (A := A ++ C) (B := E) (hsplit ▸ hr) hat (by rw [hsplit, Guarded]; omega) (by omega)
          hi44 hE curve
      have henough : ¬ (probes.print i).enough = true := by simp [(hq i).2]
      dsimp only
      rw [if_neg henough]
      split_ifs
      · exact hnext _
      · exact hnext _

/-! ### The walk as a whole -/

/-- `get_curve` returns, and each of its walks was around a class of the list and counted cached
    keys only. -/
def StaysInside (σ : LFUShard α) (probes : Probes D) : Prop :=
  ∃ L walks curve σ', LFUCore.Rep true σ.toLFUCore [] L ∧
    σ.get_curve probes [] = .ok (walks, curve, σ') ∧
    ∀ w ∈ walks, w.out_node ∈ L.map FreClass.node ∧ w.FC_size ≤ σ.m_map.keys.card

theorem Unfrozen.get_curve_eq (hu : Unfrozen σ (c :: B)) (probes : Probes D) :
    ∃ p, At [] (c :: B) p ∧ σ.get_curve probes [] =
      (curvePasses { σ with curve_flag := true } probes 44 1 p []).map
        fun r => (r.1.walks, r.2, { σ with curve_flag := false, m_threshold := 0 }) := by
  have hfirst : σ.classes.next .m_head = some c.node := hu.ordered.rep.lists.main.seg.next_first
  have hval := hu.ordered.rep.lists.fre c (by simp)
  refine ⟨⟨0, c.node, c.fre, []⟩, ⟨rfl, rfl, by simp⟩, ?_⟩
  rw [get_curve, assert_of hu.flags.2.2.2.1, ok_bind, Heap.getNext_eq hfirst, ok_bind,
    Heap.getVal_eq hval, ok_bind, assert_of List.length_nil, ok_bind]
  cases curvePasses { σ with curve_flag := true } probes 44 1 ⟨0, c.node, c.fre, []⟩ [] <;> rfl

theorem Unfrozen.staysInside (hu : Unfrozen σ (c :: B)) (hg : Guarded σ.n (c :: B))
    (probes : Probes D) :
    StaysInside σ probes := by
  obtain ⟨p, hp, heq⟩ := hu.get_curve_eq probes
  obtain ⟨p', A', B', curve', hsplit, hat, hrun⟩ :=
    curvePasses_ok (σ := { σ with curve_flag := true }) probes 44
    (A := []) (i := 0) hu.ordered.rep hp hg rfl (fun h => absurd h (by simp)) []
  rw [hrun] at heq
  refine ⟨c :: B, _, _, _, hu.ordered.rep, heq, fun w hw => ?_⟩
  rw [hu.ordered.card_keys]
  have := hat.walks w hw
  rw [hsplit] at this
  exact this

theorem Unfrozen.guarded (hu : Unfrozen σ (c :: B)) (hq : ∀ i, Quiet probes i)
    (hs : StaysInside σ probes) :
    Guarded σ.n (c :: B) := by
  by_contra hg
  obtain ⟨p, hp, heq⟩ := hu.get_curve_eq probes
  obtain ⟨L, walks, curve, σ', -, hok, -⟩ := hs
  rw [curvePasses_fails (σ := { σ with curve_flag := true }) 44 (A := [])
    hu.ordered.rep hp hg hq rfl
    (by omega) (Or.inr (by omega)) [], hok] at heq
  cases heq

/-- No one interferes, and the hits do not add up. -/
def quietProbes (D : Type) [Inhabited D] : Probes D :=
  ⟨fun _ _ => false, fun _ _ => false, fun _ => ⟨default, default, false⟩⟩

/-- Whatever the figures are, the walk stays inside the list exactly if 86% of the capacity is
    passed before the last class, or 88% with it. -/
theorem curve_walk_stays_inside_iff [Inhabited D]
    (hrun : Run LFU_FHCache.call (fun _ c => c.Plain) (LFUShard.init n) H σ) (hne : σ.m_map ≠ ∅) :
    (∀ probes : Probes D, StaysInside σ probes) ↔
      43 * σ.n < 50 * σ.keysBeforeLast ∨ 44 * σ.n < 50 * σ.m_map.keys.card := by
  obtain ⟨L, hu⟩ := Unfrozen.run hrun
  obtain ⟨A, d, rfl⟩ := hu.last_class hne
  rw [hu.ordered.keysBeforeLast_eq, hu.ordered.card_keys]
  obtain ⟨c, B, hL⟩ := List.exists_cons_of_ne_nil (show A ++ [d] ≠ [] by simp)
  have hguard : Guarded σ.n (c :: B) ↔ 43 * σ.n < 50 * (A.flatMap FreClass.keys).length ∨
      44 * σ.n < 50 * ((A ++ [d]).flatMap FreClass.keys).length := by
    rw [← hL, Guarded, List.dropLast_concat]
    rfl
  rw [hL] at hu
  rw [← hguard]
  refine ⟨fun h => hu.guarded (fun i => ⟨fun j => ⟨rfl, rfl⟩, rfl⟩) (h (quietProbes D)),
    fun hg probes => ?_⟩
  exact hu.staysInside hg probes

/-- A full shard with three classes. -/
theorem curve_walk_stays_inside_full : ∃ σ : LFUShard ℕ, σ.m_map.keys = {3, 4, 5} ∧
    [3, 4, 5].map σ.frequency = [some 3, some 2, some 1] ∧ ∀ probes : Probes ℕ,
    StaysInside σ probes := by
  obtain ⟨σ, hrun, hkeys, hfre, hn⟩ : ∃ σ : LFUShard ℕ,
      Run LFU_FHCache.call (fun _ c => c.Plain) (LFUShard.init 3)
        [(.insert 3 (some 7), .inserted true), (.find 3, .found (some (some 7))),
          (.find 3, .found (some (some 7))), (.insert 4 (some 8), .inserted true),
          (.find 4, .found (some (some 8))), (.insert 5 (some 9), .inserted true)] σ ∧
      σ.m_map.keys = {3, 4, 5} ∧ [3, 4, 5].map σ.frequency = [some 3, some 2, some 1] ∧ σ.n = 3 :=
    ⟨_, .cons trivial rfl (.cons trivial rfl
      (.cons trivial rfl (.cons trivial rfl (.cons trivial rfl
      (.cons trivial rfl .nil))))), by decide, by decide, rfl⟩
  have hne : σ.m_map ≠ ∅ := by
    rintro h
    rw [h] at hkeys
    exact absurd hkeys (by decide)
  exact ⟨σ, hkeys, hfre, (curve_walk_stays_inside_iff hrun hne).mpr
    (Or.inr (by rw [hn, hkeys]; decide))⟩

/-- One key in a shard of a hundred: the second pass walks the `list` of `m_tail`. -/
theorem curve_walk_leaves_the_list : ∃ (H : List (FHCall ℕ × FHResp ℕ)) (σ : LFUShard ℕ),
    Run LFU_FHCache.call (fun _ c => c.Plain) (LFUShard.init 100) H σ ∧ σ.m_map.keys = {3} ∧
    σ.get_curve (quietProbes ℕ) [] = .error .deref :=
  ⟨[(.insert 3 (some 7), .inserted true)], _, .cons trivial rfl .nil, by decide, rfl⟩

end LFUShard
end FrozenHot
