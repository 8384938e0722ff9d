import FrozenHot.Schemes.Heap
import FrozenHot.Cache.Machine
import Mathlib.Data.Finmap

/-! `RandomizedSet` (`redis_lru.h`): a set one can sample from.

    `vec` holds the elements and `PositionMap` their places in it, as an `int`. Removal swaps the
    last element into the hole. -/

namespace FrozenHot
open Schemes

structure RandomizedSet (K : Type) where
  PositionMap : Finmap fun _ : K => ℤ
  vec : List K

namespace RandomizedSet
variable {K : Type} [DecidableEq K]

def empty : RandomizedSet K := ⟨∅, []⟩

def insert (rs : RandomizedSet K) (key : K) : Bool × RandomizedSet K :=
  if key ∈ rs.PositionMap then (false, rs)
  else (true, ⟨rs.PositionMap.insert key (toInt rs.vec.length), rs.vec ++ [key]⟩)

/-- `vec[pos]`: a negative `pos` is converted to a `size_t` beyond every vector. -/
def at' (vec : List K) (pos : ℤ) : Except Fault K :=
  if 0 ≤ pos then
    match vec[pos.toNat]? with
    | some k => return k
    | none => throw .deref
  else throw .deref

def remove (rs : RandomizedSet K) (key : K) : Except Fault (Bool × RandomizedSet K) :=
  match rs.PositionMap.lookup key with
  | none => return (false, rs)
  | some pos => do
    let back ← at' rs.vec (rs.vec.length - 1)
    let a ← at' rs.vec pos
    return (true,
      { PositionMap := (rs.PositionMap.insert back pos).erase key
        vec := ((rs.vec.set pos.toNat back).set (rs.vec.length - 1) a).dropLast })

/-- `getRandom`. The scaled random number lies in `[0, vec.size())`; it is any index there. -/
def getRandom (rs : RandomizedSet K) (random : ℕ) : Except Fault K :=
  at' rs.vec (random % rs.vec.length : ℕ)

/-- `PositionMap` and `vec` are mutually inverse. -/
structure Inverse (rs : RandomizedSet K) : Prop where
  nodup : rs.vec.Nodup
  pos : ∀ k p, rs.PositionMap.lookup k = some p ↔ ∃ i : ℕ, rs.vec[i]? = some k ∧ p = i

variable {rs : RandomizedSet K} {k x : K} {i j : ℕ}

theorem Inverse.empty : Inverse (RandomizedSet.empty : RandomizedSet K) :=
  ⟨List.nodup_nil, fun k p => by simp [RandomizedSet.empty]⟩

theorem Inverse.mem_iff (hi : Inverse rs) : k ∈ rs.PositionMap ↔ k ∈ rs.vec := by
  rw [Finmap.mem_iff, List.mem_iff_getElem?]
  constructor
  · rintro ⟨p, hp⟩
    obtain ⟨i, h, -⟩ := (hi.pos k p).mp hp
    exact ⟨i, h⟩
  · rintro ⟨i, h⟩
    exact ⟨i, (hi.pos k i).mpr ⟨i, h, rfl⟩⟩

/-- A key has one place. -/
theorem Inverse.place_unique (hi : Inverse rs) (h : rs.vec[i]? = some k)
    (h' : rs.vec[j]? = some k) : i = j := by
  have h1 := (hi.pos k i).mpr ⟨i, h, rfl⟩
  have h2 := (hi.pos k j).mpr ⟨j, h', rfl⟩
  rw [h1, Option.some_inj] at h2
  exact_mod_cast h2

/-- Inserting an absent key puts it last; the place must fit in an `int`. -/
theorem Inverse.insert (hi : Inverse rs) (hk : k ∉ rs.vec) (hfit : rs.vec.length < 2 ^ 31) :
    Inverse (rs.insert k).2 ∧ (rs.insert k).2.vec = rs.vec ++ [k] := by
  have he : rs.insert k = (true, ⟨rs.PositionMap.insert k (toInt rs.vec.length), rs.vec ++ [k]⟩) :=
    if_neg fun h => hk (hi.mem_iff.mp h)
  rw [he]
  refine ⟨⟨?_, fun x p => ?_⟩, rfl⟩
  · exact List.nodup_append.mpr ⟨hi.nodup, List.nodup_singleton k, by
      intro a ha b hb; rw [List.mem_singleton.mp hb]; exact fun h => hk (h ▸ ha)⟩
  · dsimp only
    rw [toInt_of_lt (Int.natCast_nonneg _) (by exact_mod_cast hfit)]
    by_cases hx : x = k
    · subst hx
      rw [Finmap.lookup_insert, Option.some_inj]
      constructor
      · rintro rfl
        exact ⟨rs.vec.length, by simp, rfl⟩
      · rintro ⟨i, h, rfl⟩
        by_cases hl : i < rs.vec.length
        · rw [List.getElem?_append_left hl] at h
          exact absurd (List.mem_of_getElem? h) hk
        · have := (List.getElem?_eq_some_iff.mp h).1
          rw [List.length_append, List.length_singleton] at this
          omega
    · rw [Finmap.lookup_insert_of_ne _ hx, hi.pos]
      refine exists_congr fun i => and_congr_left fun _ => ?_
      by_cases hl : i < rs.vec.length
      · rw [List.getElem?_append_left hl]
      · rw [List.getElem?_append_right (by omega), List.getElem?_eq_none (by omega)]
        simp only [List.getElem?_singleton, reduceCtorEq, false_iff]
        split
        · simpa using fun h => hx h.symm
        · simp

omit [DecidableEq K] in
theorem at'_ok {vec : List K} {i : ℕ} (h : vec[i]? = some k) : at' vec i = .ok k := by
  simp [at', h]

/-- `vec` after the swap and `pop_back` of a removal at place `i`, with the last element `back`. -/
def swapOut (vec : List K) (i : ℕ) (back a : K) : List K :=
  ((vec.set i back).set (vec.length - 1) a).dropLast

omit [DecidableEq K] in
theorem getElem?_swapOut {vec : List K} (h : i < vec.length) (b a : K) (j : ℕ) :
    (swapOut vec i b a)[j]? = if j < vec.length - 1 then (if j = i then some b else vec[j]?)
    else none := by
  rw [swapOut, List.getElem?_dropLast]
  simp only [List.length_set, List.getElem?_set]
  by_cases hj : j < vec.length - 1
  · rw [if_pos hj, if_pos hj, if_neg (by omega)]
    by_cases hij : j = i
    · rw [if_pos hij, if_pos hij.symm, if_pos (by omega)]
    · rw [if_neg hij, if_neg (Ne.symm hij)]
  · rw [if_neg hj, if_neg hj]

/-- The places after a removal: the last element took the place of the key, the others keep theirs.
    The removed key may itself be the last element. -/
theorem Inverse.place_swapOut {b : K} (hi : Inverse rs) (hik : rs.vec[i]? = some k)
    (hb : rs.vec[rs.vec.length - 1]? = some b) (x : K) (j : ℕ) :
    (swapOut rs.vec i b k)[j]? = some x ↔ x ≠ k ∧
    (if x = b then j = i else rs.vec[j]? = some x) := by
  have hlt := (List.getElem?_eq_some_iff.mp hik).1
  rw [getElem?_swapOut hlt]
  by_cases hxb : x = b
  · subst hxb
    rw [if_pos rfl]
    constructor
    · intro h
      split_ifs at h with h1 h2
      · exact ⟨fun hxk => by have := hi.place_unique (hxk ▸ hb) hik; omega, h2⟩
      · exact absurd (hi.place_unique h hb) (by omega)
    · rintro ⟨hxk, rfl⟩
      have : j ≠ rs.vec.length - 1 :=
        fun h => hxk (by rw [h, hb] at hik; exact Option.some_inj.mp hik)
      rw [if_pos (by omega), if_pos rfl]
  · rw [if_neg hxb]
    constructor
    · intro h
      split_ifs at h with h1 h2
      · exact absurd (Option.some_inj.mp h).symm hxb
      · exact ⟨fun hxk => h2 (hi.place_unique h (hxk ▸ hik)), h⟩
    · rintro ⟨hxk, h⟩
      have hj := (List.getElem?_eq_some_iff.mp h).1
      have : j ≠ rs.vec.length - 1 :=
        fun hj => hxb (by rw [hj, hb] at h; exact (Option.some_inj.mp h).symm)
      rw [if_pos (by omega), if_neg, h]
      rintro rfl
      exact hxk (Option.some_inj.mp (h.symm.trans hik))

/-- Removing an element leaves the others. -/
theorem Inverse.remove (hi : Inverse rs) (hk : k ∈ rs.vec) :
    ∃ rs', rs.remove k = .ok (true, rs') ∧ Inverse rs' ∧ ∀ x, x ∈ rs'.vec ↔ x ∈ rs.vec ∧ x ≠ k := by
  obtain ⟨i, hik⟩ := List.mem_iff_getElem?.mp hk
  have hlt := (List.getElem?_eq_some_iff.mp hik).1
  obtain ⟨b, hb⟩ : ∃ b, rs.vec[rs.vec.length - 1]? = some b :=
    ⟨_, List.getElem?_eq_getElem (by omega)⟩
  have hl : ((rs.vec.length : ℤ) - 1) = ((rs.vec.length - 1 : ℕ) : ℤ) := by omega
  have hpos : rs.PositionMap.lookup k = some (i : ℤ) := (hi.pos k i).mpr ⟨i, hik, rfl⟩
  have hplace := hi.place_swapOut hik hb
  refine ⟨⟨(rs.PositionMap.insert b i).erase k, swapOut rs.vec i b k⟩, ?_, ⟨?_, fun x p => ?_⟩,
    fun x => ?_⟩
  · simp only [RandomizedSet.remove, hpos, hl, at'_ok hb, at'_ok hik, ok_bind, pure_eq_ok,
      Int.toNat_natCast, swapOut]
  · rw [List.nodup_iff_getElem?_ne_getElem?]
    intro a c hac hc heq
    have ha := List.getElem?_eq_getElem (lt_trans hac hc)
    obtain ⟨-, h1⟩ := (hplace _ _).mp ha
    obtain ⟨-, h2⟩ := (hplace _ _).mp (heq ▸ ha)
    split_ifs at h1 h2
    · omega
    · exact absurd (hi.place_unique h1 h2) (by omega)
  · by_cases hxk : x = k
    · subst hxk
      rw [Finmap.lookup_erase]
      exact iff_of_false (by simp) fun ⟨j, h, _⟩ => ((hplace x j).mp h).1 rfl
    · rw [Finmap.lookup_erase_ne hxk]
      simp only [hplace]
      by_cases hxb : x = b
      · subst hxb
        simp only [Finmap.lookup_insert, if_true, Option.some_inj]
        constructor
        · rintro rfl; exact ⟨i, ⟨hxk, rfl⟩, rfl⟩
        · rintro ⟨j, ⟨-, rfl⟩, rfl⟩; rfl
      · rw [Finmap.lookup_insert_of_ne _ hxb, hi.pos]
        simp only [if_neg hxb, ne_eq, hxk, not_false_eq_true, true_and]
  · rw [List.mem_iff_getElem?, List.mem_iff_getElem?]
    simp only [hplace]
    by_cases hxb : x = b
    · subst hxb
      simp only [if_true]
      constructor
      · rintro ⟨j, h, rfl⟩; exact ⟨⟨_, hb⟩, h⟩
      · rintro ⟨-, h⟩; exact ⟨i, h, rfl⟩
    · simp only [if_neg hxb]
      exact ⟨fun ⟨j, h1, h2⟩ => ⟨⟨j, h2⟩, h1⟩, fun ⟨⟨j, h2⟩, h1⟩ => ⟨j, h1, h2⟩⟩

omit [DecidableEq K] in
/-- A sample is an element. -/
theorem getRandom_mem (random : ℕ) (hne : rs.vec ≠ []) :
    ∃ k ∈ rs.vec, rs.getRandom random = .ok k := by
  have hlt : random % rs.vec.length < rs.vec.length := Nat.mod_lt _ (List.length_pos_of_ne_nil hne)
  exact ⟨_, List.getElem_mem hlt, at'_ok (List.getElem?_eq_getElem hlt)⟩

end RandomizedSet
end FrozenHot
