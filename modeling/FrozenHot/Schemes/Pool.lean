import FrozenHot.Schemes.Heap
import Mathlib.Algebra.BigOperators.Group.List.Lemmas
import Mathlib.Data.List.Nodup
import Mathlib.Tactic.Ring

/-! The calls in flight of a concurrent object.

    Each call has an identity and a place in its code. A step of one call rewrites its place or
    takes it out; `Pool.split` says what is left of the others, and `total` adds up what the calls
    still owe to a counter. -/

namespace Schemes

/-- The calls in flight with their places. -/
abbrev Pool (C : Type) := List (ℕ × C)

namespace Pool
variable {C D : Type} {p A B : Pool C} {i j : ℕ} {c d : C}

/-- The place of call `i`. -/
def get (p : Pool C) (i : ℕ) : Option C := (p.find? (·.1 = i)).map Prod.snd

/-- A new call. -/
def add (p : Pool C) (i : ℕ) (c : C) : Pool C := (i, c) :: p

/-- Call `i` goes on to another place. -/
def set (p : Pool C) (i : ℕ) (c : C) : Pool C := p.map fun x => if x.1 = i then (i, c) else x

/-- Call `i` returns. -/
def remove (p : Pool C) (i : ℕ) : Pool C := p.filter (·.1 ≠ i)

/-- Call `i` goes on, or returns. -/
def after (p : Pool C) (i : ℕ) : Option C → Pool C
  | some c => p.set i c
  | none => p.remove i

/-- No two calls have the same identity. -/
def Distinct (p : Pool C) : Prop := (p.map Prod.fst).Nodup

theorem set_of_notMem (hi : i ∉ p.map Prod.fst) (c : C) : p.set i c = p := by
  rw [set, List.map_congr_left (g := id), List.map_id]
  intro x hx
  exact if_neg fun h : x.1 = i => hi (h ▸ List.mem_map_of_mem hx)

theorem remove_of_notMem (hi : i ∉ p.map Prod.fst) : p.remove i = p := by
  rw [remove, List.filter_eq_self]
  intro x hx
  simpa using fun h : x.1 = i => hi (h ▸ List.mem_map_of_mem hx)

theorem get_none (hi : i ∉ p.map Prod.fst) : p.get i = none := by
  rw [get, Option.map_eq_none_iff, List.find?_eq_none]
  intro x hx
  simpa using fun h : x.1 = i => hi (h ▸ List.mem_map_of_mem hx)

theorem mem_of_get (h : p.get i = some c) : (i, c) ∈ p := by
  obtain ⟨x, hx, rfl⟩ := Option.map_eq_some_iff.mp h
  have h1 := List.find?_some hx
  simp only [decide_eq_true_eq] at h1
  rw [← h1]
  exact List.mem_of_find?_eq_some hx

theorem distinct_middle :
    Distinct (A ++ (i, c) :: B) ↔ i ∉ (A ++ B).map Prod.fst ∧ Distinct (A ++ B) := by
  rw [Distinct, Distinct, List.map_append, List.map_cons, List.nodup_middle, List.nodup_cons,
    List.map_append]

theorem get_middle (hi : i ∉ (A ++ B).map Prod.fst) (c : C) :
    get (A ++ (i, c) :: B) i = some c := by
  rw [List.map_append, List.mem_append, not_or] at hi
  have h1 := get_none hi.1
  rw [get, Option.map_eq_none_iff] at h1
  rw [get, List.find?_append, h1]
  simp

theorem remove_middle (hi : i ∉ (A ++ B).map Prod.fst) (c : C) :
    remove (A ++ (i, c) :: B) i = A ++ B := by
  have h1 := remove_of_notMem hi
  rw [remove, List.filter_append] at h1 ⊢
  rw [List.filter_cons_of_neg (by simp), h1]

theorem set_middle (hi : i ∉ (A ++ B).map Prod.fst) (c d : C) :
    set (A ++ (i, c) :: B) i d = A ++ (i, d) :: B := by
  rw [List.map_append, List.mem_append, not_or] at hi
  have h1 := set_of_notMem hi.1 d
  have h2 := set_of_notMem hi.2 d
  rw [set] at h1 h2 ⊢
  rw [List.map_append, List.map_cons, h1, h2]
  simp

theorem get_of_mem (hd : Distinct p) (h : (i, c) ∈ p) : p.get i = some c := by
  obtain ⟨A, B, rfl⟩ := List.append_of_mem h
  exact get_middle (distinct_middle.mp hd).1 c

theorem notMem_of_get_none (hd : Distinct p) (h : p.get i = none) : i ∉ p.map Prod.fst := by
  intro hmem
  obtain ⟨⟨i, c⟩, hc, rfl⟩ := List.mem_map.mp hmem
  cases (get_of_mem hd hc).symm.trans h

/-- A call among the others: what a step of it leaves. -/
theorem split (hd : Distinct p) (h : p.get i = some c) : ∃ A B, p = A ++ (i, c) :: B ∧
    i ∉ (A ++ B).map Prod.fst ∧ (∀ d, p.after i (some d) = A ++ (i, d) :: B) ∧
    p.after i none = A ++ B := by
  obtain ⟨A, B, rfl⟩ := List.append_of_mem (mem_of_get h)
  have hi := (distinct_middle.mp hd).1
  exact ⟨A, B, rfl, hi, set_middle hi c, remove_middle hi c⟩

/-! ### Two calls -/

theorem get_remove_ne (h : j ≠ i) (p : Pool C) : (p.remove i).get j = p.get j := by
  rw [get, get, remove, List.find?_filter]
  congr 2
  funext x
  by_cases hx : x.1 = j
  · simp [hx, h]
  · simp [hx]

theorem get_after_ne (h : j ≠ i) (p : Pool C) (x : Option C) : (p.after i x).get j = p.get j := by
  cases x with
  | none => exact get_remove_ne h p
  | some c =>
    induction p with
    | nil => rfl
    | cons y p ih =>
      simp only [after, set, get, List.map_cons, List.find?_cons] at ih ⊢
      by_cases hy : y.1 = i
      · simpa [hy, h.symm] using ih
      · by_cases hj : y.1 = j
        · simp [hj, h]
        · simpa [hy, hj] using ih

theorem after_remove (h : j ≠ i) (p : Pool C) (x : Option C) :
    (p.remove i).after j x = (p.after j x).remove i := by
  cases x with
  | none =>
    rw [after, after, remove, remove, remove, remove, List.filter_filter, List.filter_filter]
    congr 1
    funext y
    exact Bool.and_comm _ _
  | some c =>
    induction p with
    | nil => rfl
    | cons y p ih =>
      simp only [after, set, remove, List.map_cons, List.filter_cons] at ih ⊢
      by_cases hy : y.1 = j
      · simpa [hy, h] using ih
      · by_cases hi : y.1 = i
        · simpa [hi, h.symm] using ih
        · simpa [hi, hy] using ih

/-- The pool with places seen through `f`. -/
def mapPlaces (f : C → D) (p : Pool C) : Pool D := p.map fun x => (x.1, f x.2)

@[simp] theorem ids_mapPlaces (f : C → D) (p : Pool C) :
    (p.mapPlaces f).map Prod.fst = p.map Prod.fst := by
  simp [mapPlaces]

theorem forall_mapPlaces {f : C → D} {P : D → Prop} :
    (∀ x ∈ p.mapPlaces f, P x.2) ↔ ∀ x ∈ p, P (f x.2) := List.forall_mem_map

theorem get_mapPlaces (f : C → D) (p : Pool C) (i : ℕ) :
    (p.mapPlaces f).get i = (p.get i).map f := by
  simp only [get, mapPlaces, List.find?_map, Option.map_map]
  rfl

theorem after_mapPlaces (f : C → D) (p : Pool C) (i : ℕ) (c : Option C) :
    (p.mapPlaces f).after i (c.map f) = (p.after i c).mapPlaces f := by
  cases c with
  | none =>
    simp only [after, Option.map_none, remove, mapPlaces, List.filter_map]
    rfl
  | some c =>
    simp only [after, Option.map_some, set, mapPlaces, List.map_map]
    refine List.map_congr_left fun x _ => ?_
    simp only [Function.comp]
    split <;> rfl

/-- What the calls owe together. -/
def total (f : C → ℤ) (p : Pool C) : ℤ := (p.map fun x => f x.2).sum

@[simp] theorem total_nil (f : C → ℤ) : total f ([] : Pool C) = 0 := rfl

@[simp] theorem total_cons (f : C → ℤ) (x : ℕ × C) (p : Pool C) :
    total f (x :: p) = f x.2 + total f p := by
  simp [total]

@[simp] theorem total_append (f : C → ℤ) (p q : Pool C) :
    total f (p ++ q) = total f p + total f q := by
  simp [total]

theorem total_middle (f : C → ℤ) : total f (A ++ (i, c) :: B) = total f (A ++ B) + f c := by
  simp only [total_append, total_cons]; ring

theorem total_perm (f : C → ℤ) (h : p.Perm A) : total f p = total f A :=
  List.Perm.sum_eq (h.map fun x => f x.2)

theorem total_le_total {f g : C → ℤ} (h : ∀ c, f c ≤ g c) (p : Pool C) : total f p ≤ total g p := by
  induction p with
  | nil => simp
  | cons x p ih =>
    have := h x.2
    rw [total_cons, total_cons]
    omega

theorem total_add (f g : C → ℤ) (p : Pool C) :
    total (fun c => f c + g c) p = total f p + total g p := by
  induction p with
  | nil => rfl
  | cons x p ih => rw [total_cons, total_cons, total_cons, ih]; ring

theorem total_const (z : ℤ) (p : Pool C) : total (fun _ => z) p = z * p.length := by
  induction p with
  | nil => simp
  | cons x p ih => rw [total_cons, ih, List.length_cons]; push_cast; ring

end Pool

/-- A shared object with calls in flight. -/
structure Busy (S C : Type) where
  shared : S
  calls : Pool C

/-- Call `i` does its next step; a step of a call that is not in flight does not happen. -/
def Busy.go {S C O : Type} (act : S → C → Except Fault (O × Option C × S)) (s : Busy S C) (i : ℕ) :
    Except Fault (O × Busy S C) := do
  match s.calls.get i with
  | none => throw .diverge
  | some c =>
    let r ← act s.shared c
    return (r.1, ⟨r.2.2, s.calls.after i r.2.1⟩)

/-- A step of call `i` that is at `c`: with the others `q` it is the step of the call alone. -/
structure Busy.Went {S C O : Type} (act : S → C → Except Fault (O × Option C × S)) (s : Busy S C)
    (i : ℕ) (c : C) (o : O) (d : Option C) (s' : Busy S C) (q : Pool C) : Prop where
  at_ : s.calls.get i = some c
  before : s.calls.Perm ((i, c) :: q)
  others : i ∉ q.map Prod.fst
  act : act s.shared c = .ok (o, d, s'.shared)
  after : s'.calls.Perm (d.toList.map (i, ·) ++ q)
  distinct : s'.calls.Distinct

theorem Busy.went {S C O : Type} {act : S → C → Except Fault (O × Option C × S)} {s s' : Busy S C}
    {i : ℕ} {o : O} (hd : s.calls.Distinct) (h : s.go act i = .ok (o, s')) :
    ∃ c d q, Busy.Went act s i c o d s' q := by
  rw [Busy.go] at h
  cases hc : s.calls.get i with
  | none => rw [hc] at h; cases h
  | some c =>
    rw [hc] at h
    obtain ⟨⟨o', d, σ'⟩, ha, h⟩ := bind_eq_ok.mp h
    cases h
    obtain ⟨A, B, hp, hi, hsome, hnone⟩ := Pool.split hd hc
    have hq := (Pool.distinct_middle.mp (hp ▸ hd)).2
    refine ⟨c, d, A ++ B, hc, ?_, hi, ha, ?_, ?_⟩
    · rw [hp]; exact List.perm_middle
    · cases d with
      | none => rw [hnone]; exact List.Perm.refl _
      | some d => rw [hsome d]; exact List.perm_middle
    · cases d with
      | none => rw [hnone]; exact hq
      | some d => rw [hsome d]; exact Pool.distinct_middle.mpr ⟨hi, hq⟩

section
variable {S C O : Type} {act : S → C → Except Fault (O × Option C × S)} {s s' : Busy S C}
    {i j : ℕ} {c : C}
variable {o : O} {d : Option C} {q : Pool C}

theorem Busy.Went.get (hw : Busy.Went act s i c o d s' q) : s'.calls.get i = d := by
  cases d with
  | none => exact Pool.get_none fun h => hw.others ((hw.after.map Prod.fst).mem_iff.mp h)
  | some d => exact Pool.get_of_mem hw.distinct (hw.after.mem_iff.mpr (by simp))

/-- The other calls stay where they are. -/
theorem Busy.Went.get_of_ne (hw : Busy.Went act s i c o d s' q) {b : C} (hd : s.calls.Distinct)
    (h : j ≠ i) (hj : s'.calls.get j = some b) : (j, b) ∈ q ∧ s.calls.get j = some b := by
  have hmem : (j, b) ∈ q := by
    rcases List.mem_append.mp (hw.after.mem_iff.mp (Pool.mem_of_get hj)) with hx | hx
    · obtain ⟨_, -, hx⟩ := List.mem_map.mp hx
      exact absurd (congrArg Prod.fst hx).symm h
    · exact hx
  exact ⟨hmem, Pool.get_of_mem hd (hw.before.mem_iff.mpr (List.mem_cons_of_mem _ hmem))⟩

end

end Schemes
