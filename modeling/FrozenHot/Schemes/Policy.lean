import FrozenHot.Schemes.Run
import Mathlib.Data.List.Perm.Lattice

/-! Reference caches: a bounded list of key/value pairs, most recently placed first.

    `find` with `promote` is least-recently-used, without it first-in-first-out. The lemmas say what
    each operation does to a content split at the key it is about. -/

namespace Schemes

/-- The calls of a cache. -/
inductive Call (K V : Type) where
  | find (k : K)
  | insert (k : K) (v : V)
  | delete (k : K)
  | keys

/-- Their answers. -/
inductive Resp (K V : Type) where
  | found (v : Option V)
  | inserted (b : Bool)
  | deleted
  | keys (ks : List K)

namespace Policy
variable {K V : Type} [DecidableEq K]

/-- The value stored under a key. -/
def get (C : List (K × V)) (k : K) : Option V := (C.find? (·.1 = k)).map (·.2)

/-- The content without a key. -/
def drop (C : List (K × V)) (k : K) : List (K × V) := C.filter (·.1 ≠ k)

/-- Look a key up; on a hit, `promote` moves it to the front. -/
def find (promote : Bool) (C : List (K × V)) (k : K) : Option V × List (K × V) :=
  match get C k with
  | none => (none, C)
  | some v => (some v, if promote then (k, v) :: drop C k else C)

/-- Put a new key in front, within `cap` entries; a present key is refused. -/
def insert (cap : ℕ) (C : List (K × V)) (k : K) (v : V) : Bool × List (K × V) :=
  if k ∈ C.map Prod.fst then (false, C) else (true, ((k, v) :: C).take cap)

/-- One call of a reference cache of capacity `cap`; `c.1` says whether a hit promotes. -/
def step (cap : ℕ) (C : List (K × V)) (c : Bool × Call K V) : Resp K V × List (K × V) :=
  match c.2 with
  | .find k => (.found (find c.1 C k).1, (find c.1 C k).2)
  | .insert k v => (.inserted (insert cap C k v).1, (insert cap C k v).2)
  | .delete k => (.deleted, drop C k)
  | .keys => (.keys (C.map Prod.fst), C)

variable {C A B : List (K × V)} {k : K} {v : V} {cap : ℕ}

theorem get_none (hk : k ∉ C.map Prod.fst) : get C k = none := by
  have : C.find? (·.1 = k) = none := by
    rw [List.find?_eq_none]
    intro x hx
    simp only [decide_eq_true_eq]
    rintro rfl
    exact hk (List.mem_map_of_mem hx)
  rw [get, this]; rfl

theorem get_middle (hk : k ∉ A.map Prod.fst) : get (A ++ (k, v) :: B) k = some v := by
  have : A.find? (·.1 = k) = none := by
    rw [List.find?_eq_none]
    intro x hx
    simp only [decide_eq_true_eq]
    rintro rfl
    exact hk (List.mem_map_of_mem hx)
  simp [get, List.find?_append, this]

theorem drop_none (hk : k ∉ C.map Prod.fst) : drop C k = C := by
  rw [drop, List.filter_eq_self]
  intro x hx
  simp only [decide_eq_true_eq]
  rintro rfl
  exact hk (List.mem_map_of_mem hx)

theorem drop_middle (hk : k ∉ (A ++ B).map Prod.fst) : drop (A ++ (k, v) :: B) k = A ++ B := by
  rw [List.map_append, List.mem_append, not_or] at hk
  have h1 := drop_none hk.1
  have h2 := drop_none hk.2
  rw [drop] at h1 h2 ⊢
  rw [List.filter_append, List.filter_cons_of_neg (by simp), h1, h2]

theorem find_none (hk : k ∉ C.map Prod.fst) (b : Bool) : find b C k = (none, C) := by
  simp [find, get_none hk]

theorem find_middle (hk : k ∉ (A ++ B).map Prod.fst) (b : Bool) :
    find b (A ++ (k, v) :: B) k = (some v, if b then (k, v) :: (A ++ B) else A ++ (k, v) :: B) := by
  have hA : k ∉ A.map Prod.fst := fun h => hk (by simp only [List.map_append]; simp at h ⊢; tauto)
  simp [find, get_middle hA, drop_middle hk]

theorem insert_present (hk : k ∈ C.map Prod.fst) : insert cap C k v = (false, C) := if_pos hk

theorem insert_absent (hk : k ∉ C.map Prod.fst) (hcap : 1 ≤ cap) (hC : C.length ≤ cap) :
    insert cap C k v = (true, (k, v) :: if C.length < cap then C else C.dropLast) := by
  obtain ⟨c, rfl⟩ : ∃ c, cap = c + 1 := ⟨cap - 1, by omega⟩
  rw [insert, if_neg hk, List.take_succ_cons]
  split
  · rw [List.take_of_length_le (by omega)]
  · rw [List.dropLast_eq_take]
    have : C.length - 1 = c := by omega
    rw [this]

/-! ### Lookups after a call -/

variable {k' : K}

theorem get_cons : get ((k, v) :: C) k' = if k = k' then some v else get C k' := by
  simp only [get, List.find?_cons]
  by_cases h : k = k' <;> simp [h]

theorem get_drop : get (drop C k) k' = if k' = k then none else get C k' := by
  rw [get, get, drop, List.find?_filter]
  by_cases h : k' = k
  · subst h
    rw [if_pos rfl, Option.map_eq_none_iff, List.find?_eq_none]
    intro x _
    simp
  · rw [if_neg h]
    congr 2
    funext x
    by_cases hx : x.1 = k'
    · simp [hx, h]
    · simp [hx]

theorem get_find (b : Bool) : get (find b C k).2 k' = get C k' := by
  unfold find
  cases hk : get C k with
  | none => rfl
  | some v =>
    cases b with
    | false => rfl
    | true =>
      simp only [if_true, get_cons, get_drop]
      by_cases h : k = k'
      · subst h; simp [hk]
      · simp [h, Ne.symm h]

theorem find_fst (b : Bool) : (find b C k).1 = get C k := by
  unfold find
  cases get C k <;> rfl

theorem get_take {n : ℕ} {w : V} (h : get (C.take n) k = some w) : get C k = some w := by
  rw [← List.take_append_drop n C, get, List.find?_append]
  obtain ⟨x, hx, rfl⟩ := Option.map_eq_some_iff.mp h
  rw [hx]
  rfl

end Policy

end Schemes
