import FrozenHot.Freeze.Marker
import FrozenHot.Freeze.LFUCurve
import FrozenHot.Schemes.Rounding
import Mathlib.Data.Rat.Cast.Order
import Mathlib.Algebra.Order.Field.Rat
import Mathlib.Tactic.Ring
import Mathlib.Tactic.NormNum

/-! The points of the curve that `get_curve` of `LRU_FHCache` takes (`hhvm_lru_cache_FH.h`,
    `FHCache.h`).

    The counters of `FHCacheAPI` are counted up by `find` and `insert`, all of them while a curve is
    taken, since `sample_flag` is off then; the figures are the differences to the cursors that were
    set when the curve began. The controller polls them until enough nodes have moved in front of
    the marker, and notes a point. Requests come between any two of its steps. The result of every
    operation on doubles is rounded, and so is every number that becomes a double; a product with
    `1.0` is exact. -/

namespace FrozenHot
open Schemes ListShard

variable {α : Type}

/-- The counters of `FHCacheAPI` and their cursors. -/
structure FHStat where
  fast_find_hit : UInt64
  tbb_find_miss : UInt64
  end_to_end_find_succ : UInt64
  insert_count : UInt64
  fast_hit_cursor : UInt64
  miss_cursor : UInt64
  o_hit_cursor : UInt64
  insert_cursor : UInt64

namespace FHStat

def reset_cursor (st : FHStat) : FHStat :=
  { st with
    fast_hit_cursor := st.fast_find_hit
    miss_cursor := st.tbb_find_miss
    o_hit_cursor := st.end_to_end_find_succ
    insert_cursor := st.insert_count }

/-- A node that `find` moves in front of the marker: it is not stamped later than the marker. -/
def moves (σ : Shard α) (node : Ptr) : Bool :=
  match σ.heap.val node, σ.heap.val σ.m_marker with
  | some d, some m => decide (σ.m_marker ≠ .null ∧ d.m_time ≤ m.m_time)
  | _, _ => false

/-- What `find` counts once the fast hash has not answered. -/
def findSlow (σ : Shard α) (key : ℕ) (st : FHStat) : FHStat :=
  match σ.m_map.lookup key with
  | none => { st with tbb_find_miss := st.tbb_find_miss + 1 }
  | some e =>
    if ¬ σ.fast_hash_construct ∧ σ.curve_flag ∧ ¬ moves σ e.m_listNode then
      { st with fast_find_hit := st.fast_find_hit + 1 }
    else { st with end_to_end_find_succ := st.end_to_end_find_succ + 1 }

/-- What `find` counts. -/
def find (σ : Shard α) (key : ℕ) (st : FHStat) : FHStat :=
  if σ.tier_ready || σ.fast_hash_ready then
    match σ.m_fasthash.get key with
    | some _ => { st with fast_find_hit := st.fast_find_hit + 1 }
    | none => if σ.tier_ready then { st with tbb_find_miss := st.tbb_find_miss + 1 } else
        st.findSlow σ key
  else st.findSlow σ key

/-- What `insert` counts. -/
def insert (st : FHStat) : FHStat := { st with insert_count := st.insert_count + 1 }

/-- `get_step`: `FC_hit` and `global_miss`. -/
def get_step (R : Rounding) (st : FHStat) : ℚ × ℚ :=
  let fast_hit := st.fast_find_hit - st.fast_hit_cursor
  let miss := st.tbb_find_miss - st.miss_cursor
  let o_hit := st.end_to_end_find_succ - st.o_hit_cursor
  let insert_num := st.insert_count - st.insert_cursor
  let total : ℚ := R.fl (insert_num + fast_hit + o_hit).toNat
  let temp : ℚ := if total = 0 then 1 else R.fl (1 - R.fl (R.fl fast_hit.toNat / total))
  (R.fl (1 - temp), if total = 0 then 0 else R.fl (R.fl miss.toNat / total))

/-- `print_step`: `FC_hit` and `global_miss`. -/
def print_step (R : Rounding) (st : FHStat) : ℚ × ℚ :=
  let fast_hit := st.fast_find_hit - st.fast_hit_cursor
  let o_hit := st.end_to_end_find_succ - st.o_hit_cursor
  let insert_num := st.insert_count - st.insert_cursor
  let total : ℚ := R.fl (fast_hit + insert_num + o_hit).toNat
  let temp : ℚ := if total = 0 then 1 else R.fl (1 - R.fl (R.fl fast_hit.toNat / total))
  (R.fl (1 - temp), if total = 0 then 1 else R.fl (R.fl insert_num.toNat / total))

end FHStat

/-- Where `get_curve` is: in the inner loop of pass `i`, after it, or after the passes. -/
inductive CurveAt where
  | polling (i : ℕ)
  | recording (i FC_size : ℕ)
  | ended

/-- A shard that is profiled, with its counters and the points so far. -/
structure Profiler (α : Type) where
  shard : Shard α
  stat : FHStat
  at_ : CurveAt
  curve_container : List (CurvePoint ℚ ℚ)

/-- A read request, an iteration of the inner loop, or the end of a pass; `should_stop` is what the
    loop test reads. -/
inductive CurveStep (α : Type) where
  | request (lock : Bool) (key : ℕ) (value : α)
  | poll (should_stop : Bool)
  | record (should_stop : Bool)

namespace Profiler
open Shard

/-- `get_curve` up to its passes. -/
def start (σ : Shard α) (st : FHStat) (should_stop : Bool) : Except Fault (Profiler α) := do
  let σ ← σ.beginCurve
  return ⟨σ, st.reset_cursor, if should_stop then .ended else .polling 0, []⟩

def request (p : Profiler α) (lock : Bool) (key : ℕ) (value : α) :
    Except Fault (FHResp α × Profiler α) := do
  let r ← LRU_FHCache.call p.shard (lock, .get key value)
  let stat := p.stat.find p.shard key
  let stat := match r.1 with
    | .got ⟨none, _⟩ => stat.insert
    | _ => stat
  return (r.1, { p with shard := r.2, stat := stat })

section
variable (R : Rounding)

/-- An iteration of the inner loop of pass `i`. -/
def poll (p : Profiler α) (i : ℕ) (should_stop : Bool) : Profiler α :=
  let temp := p.stat.get_step R
  let FC_size := p.shard.movement_counter
  if R.fl (temp.1 + temp.2) > R.fl 0.992 then { p with at_ := .recording i FC_size }
  else if R.fl FC_size ≤ R.fl (R.fl (R.fl (p.shard.m_maxSize * i % 2 ^ 64 : ℕ) / 100) * 2) ∧
    ¬ should_stop then p
  else { p with at_ := .recording i FC_size }

/-- The rest of pass `i`. -/
def record (p : Profiler α) (i FC_size : ℕ) (should_stop : Bool) : Profiler α :=
  let FC_ratio : ℚ := R.fl (R.fl FC_size / R.fl p.shard.m_maxSize)
  let step := p.stat.print_step R
  if R.fl (step.1 + step.2) > R.fl 0.992 ∨ FC_ratio > R.fl 0.9 then { p with at_ := .ended }
  else { p with
    curve_container := p.curve_container ++ [⟨FC_ratio, step.1, step.2⟩]
    at_ := if i + 1 < 45 ∧ ¬ should_stop then .polling (i + 1) else .ended }

def step (p : Profiler α) : CurveStep α → Except Fault (FHResp α × Profiler α)
  | .request lock key value => p.request lock key value
  | .poll should_stop => match p.at_ with
    | .polling i => return (.done, p.poll R i should_stop)
    | _ => throw .diverge
  | .record should_stop => match p.at_ with
    | .recording i FC_size => return (.done, p.record R i FC_size should_stop)
    | _ => throw .diverge

end

/-- Requests have valid keys, and do not make a full shard evict the marker. -/
def Allowed (p : Profiler α) : CurveStep α → Prop
  | .request lock key value => ValidKey key ∧ SparesMarker p.shard (.call (lock, .get key value))
  | _ => True

/-! ### What the clients did -/

/-- The keys that requests found, in order. -/
def found (H : List (CurveStep α × FHResp α)) : List ℕ :=
  H.filterMap fun
    | (.request _ k _, .got ⟨some _, _⟩) => some k
    | _ => none

/-- The number of requests that found nothing. -/
def missed (H : List (CurveStep α × FHResp α)) : ℕ :=
  H.countP fun
    | (.request _ _ _, .got ⟨none, _⟩) => true
    | _ => false

/-- The number of different keys that were found. -/
def distinct (H : List (CurveStep α × FHResp α)) : ℕ := (found H).toFinset.card

/-- The number of requests. -/
def requests (H : List (CurveStep α × FHResp α)) : ℕ := (found H).length + missed H

/-- A point of the curve after the clients did `H₁` up to the poll and `H₂` up to the record: the
    part of the cache that holds what was found, the requests that found what had been found before,
    and those that found nothing. The first and the last are the quotients as doubles; the other is
    computed from its complement, and off by three roundings at most. -/
structure Exact (R : Rounding) (maxSize : ℕ) (H₁ H₂ : List (CurveStep α × FHResp α))
    (pt : CurvePoint ℚ ℚ) :
    Prop where
  size : pt.size_ = R.fl (distinct H₁ / maxSize)
  some_request : 0 < requests H₂
  hit : |pt.FC_hit_ - ((found H₂).length - distinct H₂ : ℕ) / requests H₂| ≤ 3 / 2 ^ 53
  miss : pt.miss_ = R.fl (missed H₂ / requests H₂)
  room : R.fl (pt.FC_hit_ + pt.miss_) ≤ R.fl 0.992 ∧ pt.size_ ≤ R.fl 0.9

/-! ### The counters -/

variable {σ σ' : Shard α} {τ : ListShard α} {A B : List Item}
    {H H₁ H₂ : List (CurveStep α × FHResp α)} {p p' : Profiler α}
variable {c : CurveStep α} {o : FHResp α} {R : Rounding} {maxSize k : ℕ}

/-- Whether `find` moves a node tells the two sides of the marker apart. -/
theorem moves_eq (hp : Profiled σ τ A B) (hk : k ∈ σ.m_map) :
    ∃ e, σ.m_map.lookup k = some e ∧ FHStat.moves σ e.m_listNode = decide (k ∉ A.map Item.key) := by
  obtain ⟨t, ht, hA, hB⟩ := hp.stamps
  obtain ⟨m, hm, rfl⟩ := Option.map_eq_some_iff.mp ht
  have hstamp : ∀ x ∈ A ++ B, ∃ d, σ.heap.val x.node = some d := by
    intro x hx
    have hkey :=
      hp.lists.key x (by simp only [List.mem_append] at hx; rcases hx with hx | hx <;> simp [hx])
    obtain ⟨d, hd, -⟩ := Option.map_eq_some_iff.mp hkey
    exact ⟨d, hd⟩
  have hdisj := hp.curved.flat.listed.nodup
  rw [List.map_append] at hdisj
  rcases hp.mem_map.mp hk with hk | hk
  · obtain ⟨x, hx, rfl⟩ := List.mem_map.mp hk
    obtain ⟨v, he⟩ := hp.curved.flat.linked x (by simp [hx])
    obtain ⟨d, hd⟩ := hstamp x (by simp [hx])
    have hlt := hA x hx d.m_time (by rw [timeAt, hd]; rfl)
    refine ⟨_, (hp.rep.field Core.m_map fun _ _ => rfl) ▸ he, ?_⟩
    simp only [FHStat.moves, hd, hp.marker, hm, hk, not_true_eq_false, decide_false]
    exact decide_eq_false fun h => absurd h.2 (by omega)
  · have hkA : k ∉ A.map Item.key := fun h => List.disjoint_of_nodup_append hdisj h hk
    obtain ⟨x, hx, rfl⟩ := List.mem_map.mp hk
    obtain ⟨v, he⟩ := hp.curved.flat.linked x (by simp [hx])
    obtain ⟨d, hd⟩ := hstamp x (by simp [(mem_alive.mp hx).1])
    have hle := hB x (mem_alive.mp hx).1 d.m_time (by rw [timeAt, hd]; rfl)
    refine ⟨_, (hp.rep.field Core.m_map fun _ _ => rfl) ▸ he, ?_⟩
    simp only [FHStat.moves, hd, hp.marker, hm, hkA, not_false_eq_true, decide_true]
    exact decide_eq_true ⟨hp.marker_isNode.ne_null, hle⟩

/-- What `find` counts while the curve is taken: a miss, a hit of a key found before, or a first
    hit. -/
theorem count_find (hp : Profiled σ τ A B) (k : ℕ) (st : FHStat) : st.find σ k =
    if k ∉ σ.m_map then { st with tbb_find_miss := st.tbb_find_miss + 1 }
    else if k ∈ A.map Item.key then { st with fast_find_hit := st.fast_find_hit + 1 }
    else { st with end_to_end_find_succ := st.end_to_end_find_succ + 1 } := by
  have hcore := hp.rep.core
  obtain ⟨htier, hready, -, hconstruct⟩ := hp.curved.flat.flags
  rw [← hcore] at htier hready hconstruct
  change σ.tier_ready = false at htier
  change σ.fast_hash_ready = false at hready
  change σ.fast_hash_construct = false at hconstruct
  rw [FHStat.find, htier, hready]
  simp only [Bool.or_false, Bool.false_eq_true, if_false]
  rw [FHStat.findSlow, hconstruct, hp.curve]
  by_cases hk : k ∈ σ.m_map
  · rw [if_neg (not_not_intro hk)]
    obtain ⟨e, he, hmoves⟩ := moves_eq hp hk
    rw [he]
    dsimp only
    rw [hmoves]
    by_cases hA : k ∈ A.map Item.key <;> simp [hA]
  · rw [if_pos hk, Finmap.lookup_eq_none.mpr hk]

/-! ### The history of one more step -/

theorem found_hit (lock : Bool) (v : α) (w : Option α) (b : Option Bool) :
    found (H ++ [(.request lock k v, .got ⟨some w, b⟩)]) = found H ++ [k] := by
  simp [found]

theorem missed_hit (lock : Bool) (v : α) (w : Option α) (b : Option Bool) :
    missed (H ++ [(.request lock k v, .got ⟨some w, b⟩)]) = missed H := by
  simp [missed]

theorem found_miss (lock : Bool) (v : α) (b : Option Bool) :
    found (H ++ [(.request lock k v, .got ⟨none, b⟩)]) = found H := by
  simp [found]

theorem missed_miss (lock : Bool) (v : α) (b : Option Bool) :
    missed (H ++ [(.request lock k v, .got ⟨none, b⟩)]) = missed H + 1 := by
  simp [missed]

theorem distinct_le : distinct H ≤ (found H).length := (found H).toFinset_card_le

theorem distinct_mono (h : H₁ <+: H₂) : distinct H₁ ≤ distinct H₂ := by
  obtain ⟨H', rfl⟩ := h
  refine Finset.card_le_card fun k hk => ?_
  rw [List.mem_toFinset] at hk ⊢
  rw [found, List.filterMap_append]
  exact List.mem_append_left _ hk

theorem requests_le : requests H ≤ H.length := by
  induction H using List.reverseRecOn with
  | nil => simp [requests, found, missed]
  | append_singleton H x ih =>
    rw [requests, found, missed] at ih ⊢
    rw [List.filterMap_append, List.countP_append, List.length_append, List.length_append,
      List.length_singleton]
    obtain ⟨_ | _ | _, _ | _ | ⟨_ | _, _⟩ | _⟩ := x <;> simp <;> omega

/-! ### The invariant -/

/-- The counters and the marker after the clients did `H`. -/
structure Tallied (maxSize : ℕ) (H : List (CurveStep α × FHResp α)) (p : Profiler α) : Prop where
  profiled : ∃ τ A B, Profiled p.shard τ A B ∧ ∀ k, k ∈ A.map Item.key ↔ k ∈ found H
  capacity : p.shard.m_maxSize = maxSize
  fast_hit : p.stat.fast_find_hit - p.stat.fast_hit_cursor =
    UInt64.ofNat ((found H).length - distinct H)
  o_hit : p.stat.end_to_end_find_succ - p.stat.o_hit_cursor = UInt64.ofNat (distinct H)
  miss : p.stat.tbb_find_miss - p.stat.miss_cursor = UInt64.ofNat (missed H)
  inserted : p.stat.insert_count - p.stat.insert_cursor = UInt64.ofNat (missed H)

theorem count_up {a c : UInt64} {n : ℕ} (h : a - c = UInt64.ofNat n) :
    a + 1 - c = UInt64.ofNat (n + 1) := by
  rw [UInt64.ofNat_add, ← h]
  grind

/-- The marker counts the different keys found. -/
theorem Tallied.movement (ht : Tallied maxSize H p) : p.shard.movement_counter = distinct H := by
  obtain ⟨τ, A, B, hp, hA⟩ := ht.profiled
  have hnd := hp.curved.flat.listed.nodup
  rw [List.map_append] at hnd
  rw [(hp.rep.field Core.movement_counter fun _ _ => rfl), hp.curved.count,
    distinct, ← List.length_map (f := Item.key), ← List.toFinset_card_of_nodup hnd.of_append_left]
  congr 1
  ext k
  rw [List.mem_toFinset, List.mem_toFinset, hA]

/-- A request that found its key. -/
theorem distinct_hit (lock : Bool) (v : α) (w : Option α) (b : Option Bool) :
    distinct (H ++ [(.request lock k v, .got ⟨some w, b⟩)]) = if k ∈ found H then distinct H else
    distinct H + 1 := by
  rw [distinct, found_hit, List.toFinset_append]
  split
  · rename_i hk
    rw [Finset.union_eq_left.mpr (by simpa using hk), distinct]
  · rename_i hk
    rw [Finset.card_union_of_disjoint (by simpa using hk), distinct]
    simp

/-- A request that finds its key. -/
theorem Tallied.request_hit (lock : Bool) (v : α) (ht : Tallied maxSize H p)
    (hk : k ∈ p.shard.m_map) :
    ∃ o p', p.request lock k v = .ok (o, p') ∧ Tallied maxSize (H ++ [(.request lock k v, o)]) p' ∧
      p'.at_ = p.at_ ∧ p'.curve_container = p.curve_container := by
  obtain ⟨τ, A, B, hp, hA⟩ := ht.profiled
  have hcount := count_find hp k p.stat
  obtain ⟨w, σ', τ', A', B', hcall, hp', hmax, hA'⟩ := hp.get_hit lock hk v
  rw [if_neg (not_not_intro hk)] at hcount
  refine ⟨.got ⟨some w, none⟩, { p with shard := σ', stat := p.stat.find p.shard k }, ?_,
    ⟨⟨τ', A', B', hp', fun j => ?_⟩, hmax.trans ht.capacity, ?_, ?_, ?_, ?_⟩, rfl, rfl⟩
  · rw [Profiler.request, hcall]
    rfl
  · rw [hA', hA, found_hit, List.mem_append, List.mem_singleton]
  all_goals
    dsimp only
    rw [hcount]
  · rw [found_hit, distinct_hit, List.length_append, List.length_singleton]
    have hle : distinct H ≤ (found H).length := distinct_le
    by_cases hf : k ∈ found H
    · rw [if_pos ((hA k).mpr hf), if_pos hf,
        show (found H).length + 1 - distinct H = (found H).length - distinct H + 1 by omega]
      exact count_up ht.fast_hit
    · rw [if_neg (mt (hA k).mp hf), if_neg hf, Nat.add_sub_add_right]
      exact ht.fast_hit
  · rw [distinct_hit]
    by_cases hf : k ∈ found H
    · rw [if_pos ((hA k).mpr hf), if_pos hf]
      exact ht.o_hit
    · rw [if_neg (mt (hA k).mp hf), if_neg hf]
      exact count_up ht.o_hit
  · rw [missed_hit]
    split <;> exact ht.miss
  · rw [missed_hit]
    split <;> exact ht.inserted

/-- A request that does not. -/
theorem Tallied.request_miss {lock : Bool} {v : α} (ht : Tallied maxSize H p)
    (hc : Allowed p (.request lock k v)) (hk : k ∉ p.shard.m_map) :
    ∃ o p', p.request lock k v = .ok (o, p') ∧ Tallied maxSize (H ++ [(.request lock k v, o)]) p' ∧
      p'.at_ = p.at_ ∧ p'.curve_container = p.curve_container := by
  obtain ⟨τ, A, B, hp, hA⟩ := ht.profiled
  have hcount := count_find hp k p.stat
  obtain ⟨σ', τ', B', hcall, hp', hmax⟩ := hp.get_miss lock hc.1 hk v fun hfull =>
    hp.spares_iff.mp (hc.2 hp.curve hk hfull)
  rw [if_pos hk] at hcount
  refine ⟨.got ⟨none, some true⟩, { p with shard := σ', stat := (p.stat.find p.shard k).insert },
    ?_, ⟨⟨τ', A, B', hp', fun j => ?_⟩, hmax.trans ht.capacity, ?_, ?_, ?_, ?_⟩, rfl, rfl⟩
  · rw [Profiler.request, hcall]
    rfl
  · rw [hA, found_miss]
  all_goals
    dsimp only
    rw [hcount, FHStat.insert]
  · rw [distinct, found_miss]
    exact ht.fast_hit
  · rw [distinct, found_miss]
    exact ht.o_hit
  · rw [missed_miss]
    exact count_up ht.miss
  · rw [missed_miss]
    exact count_up ht.inserted

/-- A request keeps the tallies, and always returns. -/
theorem Tallied.request {lock : Bool} {v : α} (ht : Tallied maxSize H p)
    (hc : Allowed p (.request lock k v)) :
    ∃ o p', p.request lock k v = .ok (o, p') ∧ Tallied maxSize (H ++ [(.request lock k v, o)]) p' ∧
      p'.at_ = p.at_ ∧ p'.curve_container = p.curve_container := by
  by_cases hk : k ∈ p.shard.m_map
  · exact ht.request_hit lock v hk
  · exact ht.request_miss hc hk

/-- The figures of a pass, as long as the counters are exact as doubles. -/
theorem Tallied.print_step (ht : Tallied maxSize H p) (hlen : H.length < 2 ^ 53) :
    p.stat.print_step R =
    if requests H = 0 then (0, 1)
    else (R.fl (1 - R.fl (1 - R.fl (((found H).length - distinct H : ℕ) / requests H))),
      R.fl (missed H / requests H)) := by
  have hle : distinct H ≤ (found H).length := distinct_le
  have hreq : requests H ≤ H.length := requests_le
  have hsum : (found H).length - distinct H + missed H + distinct H = requests H := by
    rw [requests]; omega
  have hlt : ∀ {n : ℕ}, n ≤ requests H → R.fl (UInt64.ofNat n).toNat = n := by
    intro n hn
    rw [UInt64.toNat_ofNat_of_lt' (by rw [UInt64.size]; omega)]
    exact R.exact_of_le n (by omega)
  simp only [FHStat.print_step, ht.fast_hit, ht.o_hit, ht.inserted, ← UInt64.ofNat_add, hsum,
    hlt le_rfl, Nat.cast_eq_zero]
  by_cases h0 : requests H = 0
  · simp [h0, R.fl_zero]
  · rw [if_neg h0, if_neg h0, if_neg h0, hlt (by omega), hlt (by omega)]

/-- A step of the controller leaves shard and counters. -/
theorem Tallied.quiet (ht : Tallied maxSize H p) (hshard : p'.shard = p.shard)
    (hstat : p'.stat = p.stat) (hc : ∀ lock k v, c ≠ .request lock k v) :
    Tallied maxSize (H ++ [(c, o)]) p' := by
  have hfound : found (H ++ [(c, o)]) = found H := by
    cases c with
    | request lock k v => exact absurd rfl (hc lock k v)
    | poll _ => simp [found]
    | record _ => simp [found]
  have hmissed : missed (H ++ [(c, o)]) = missed H := by
    cases c with
    | request lock k v => exact absurd rfl (hc lock k v)
    | poll _ => simp [missed]
    | record _ => simp [missed]
  obtain ⟨h1, h2, h3, h4, h5, h6⟩ := ht
  rw [← hshard] at h1 h2
  rw [← hstat] at h3 h4 h5 h6
  constructor <;> simpa only [distinct, hfound, hmissed]

/-- The points so far, and where the curve is. -/
structure Noted (R : Rounding) (maxSize : ℕ) (H : List (CurveStep α × FHResp α)) (p : Profiler α) :
    Prop where
  points : ∀ pt ∈ p.curve_container, ∃ H₁ H₂, H₁ <+: H₂ ∧ H₂ <+: H ∧ Exact R maxSize H₁ H₂ pt
  sorted : p.curve_container.Pairwise fun a b => a.size_ ≤ b.size_
  place : match p.at_ with
    | .polling i => i < 45 ∧ p.curve_container.length = i
    | .recording i FC_size => i < 45 ∧ p.curve_container.length = i ∧ ∃ H₁, H₁ <+: H ∧
        FC_size = distinct H₁ ∧
        ∀ pt ∈ p.curve_container, pt.size_ ≤ R.fl (distinct H₁ / maxSize)
    | .ended => p.curve_container.length ≤ 45

theorem Noted.length_le (hn : Noted R maxSize H p) : p.curve_container.length ≤ 45 := by
  have hplace := hn.place
  split at hplace <;> omega

/-- Steps that leave the curve where it is. -/
theorem Noted.mono (hn : Noted R maxSize H p) (hH : H <+: H₁) (hat : p'.at_ = p.at_)
    (hcurve : p'.curve_container = p.curve_container) : Noted R maxSize H₁ p' := by
  obtain ⟨hpoints, hsorted, hplace⟩ := hn
  rw [← hcurve] at hpoints hsorted hplace
  refine ⟨fun pt hpt => ?_, hsorted, ?_⟩
  · obtain ⟨K₁, K₂, h1, h2, hexact⟩ := hpoints pt hpt
    exact ⟨K₁, K₂, h1, h2.trans hH, hexact⟩
  · rw [hat]
    cases h : p.at_ with
    | polling i => rwa [h] at hplace
    | ended => rwa [h] at hplace
    | recording i FC_size =>
      rw [h] at hplace
      obtain ⟨hi, hl, K₁, hK, hFC⟩ := hplace
      exact ⟨hi, hl, K₁, hK.trans hH, hFC⟩

/-- The size of every point so far is at most what the marker counts now. -/
theorem Noted.size_le (hmono : Monotone R.fl) (hn : Noted R maxSize H p) :
    ∀ pt ∈ p.curve_container, pt.size_ ≤ R.fl (distinct H / maxSize) := by
  intro pt hpt
  obtain ⟨K₁, K₂, h1, h2, hexact⟩ := hn.points pt hpt
  rw [hexact.size]
  have : (distinct K₁ : ℚ) ≤ distinct H := by exact_mod_cast distinct_mono (h1.trans h2)
  exact hmono (div_le_div_of_nonneg_right this (Nat.cast_nonneg _))

theorem Noted.poll {i : ℕ} {stop : Bool} (hmono : Monotone R.fl) (hn : Noted R maxSize H p)
    (ht : Tallied maxSize H p) (hat : p.at_ = .polling i) :
    Noted R maxSize H (p.poll R i stop) := by
  have hplace := hn.place
  rw [hat] at hplace
  have hle := hn.size_le hmono
  have hdone : Noted R maxSize H { p with at_ := .recording i p.shard.movement_counter } :=
    ⟨hn.points, hn.sorted, hplace.1, hplace.2, H, List.prefix_rfl, ht.movement, hle⟩
  unfold Profiler.poll
  dsimp only
  split
  · exact hdone
  · split
    · exact hn
    · exact hdone

/-- Without a request the figures add up to one, and no point is noted. -/
theorem Tallied.some_request (hmono : Monotone R.fl) (ht : Tallied maxSize H p)
    (hlen : H.length < 2 ^ 53)
    (hroom : R.fl ((p.stat.print_step R).1 + (p.stat.print_step R).2) ≤ R.fl 0.992) :
    requests H ≠ 0 := by
  intro h0
  obtain ⟨-, -, herr⟩ := Rounding.fl_unit hmono (x := 0.992) (by norm_num) (by norm_num)
  rw [ht.print_step hlen, if_pos h0, zero_add, R.fl_one] at hroom
  linarith [(abs_le.mp herr).2]

/-- The point that a pass notes. -/
theorem Tallied.exact (hmono : Monotone R.fl) (ht : Tallied maxSize H p) (hlen : H.length < 2 ^ 53)
    (hroom : R.fl ((p.stat.print_step R).1 + (p.stat.print_step R).2) ≤ R.fl 0.992 ∧
      R.fl (distinct H₁ / maxSize) ≤ R.fl 0.9) :
    Exact R maxSize H₁ H ⟨R.fl (distinct H₁ / maxSize), (p.stat.print_step R).1,
      (p.stat.print_step R).2⟩ := by
  have h0 := ht.some_request hmono hlen hroom.1
  have hle : (found H).length - distinct H ≤ requests H := by
    rw [requests]
    omega
  have hpos : (0 : ℚ) < requests H := by exact_mod_cast Nat.pos_of_ne_zero h0
  refine ⟨rfl, Nat.pos_of_ne_zero h0, ?_, ?_, hroom⟩
  · rw [ht.print_step hlen, if_neg h0]
    exact Rounding.fl_rest_of_rest hmono (by positivity)
      ((div_le_one hpos).mpr (by exact_mod_cast hle))
  · rw [ht.print_step hlen, if_neg h0]

theorem Noted.record {i FC_size : ℕ} {stop : Bool} (hmono : Monotone R.fl)
    (hn : Noted R maxSize H p) (ht : Tallied maxSize H p) (hlen : H.length < 2 ^ 53)
    (hcap : maxSize ≤ 2 ^ 53) (hat : p.at_ = .recording i FC_size) :
    Noted R maxSize H (p.record R i FC_size stop) := by
  have hplace := hn.place
  rw [hat] at hplace
  obtain ⟨hi, hl, H₁, hH₁, rfl, hle⟩ := hplace
  have hdistinct : distinct H₁ ≤ 2 ^ 53 := by
    have := distinct_mono hH₁
    have := distinct_le (H := H)
    have := requests_le (H := H)
    rw [requests] at this
    omega
  unfold Profiler.record
  dsimp only
  rw [ht.capacity, R.exact_of_le _ hdistinct, R.exact_of_le _ hcap]
  split
  · exact ⟨hn.points, hn.sorted, hn.length_le⟩
  · rename_i hgo
    rw [not_or, not_lt, not_lt] at hgo
    refine ⟨fun pt hpt => ?_, ?_, ?_⟩
    · rcases List.mem_append.mp hpt with hpt | hpt
      · exact hn.points pt hpt
      · rw [List.mem_singleton.mp hpt]
        exact ⟨H₁, H, hH₁, List.prefix_rfl, ht.exact hmono hlen hgo⟩
    · refine List.pairwise_append.mpr ⟨hn.sorted, List.pairwise_singleton _ _, fun a ha b hb => ?_⟩
      rw [List.mem_singleton.mp hb]
      exact hle a ha
    · dsimp only
      split
      · rename_i hat'
        split at hat'
        · cases hat'
          simp only [List.length_append, List.length_singleton]
          omega
        · cases hat'
      · rename_i hat'
        split at hat' <;> cases hat'
      · simp only [List.length_append, List.length_singleton]
        omega

/-- The request is for a key that the shard holds, or has room for. -/
def Fits (p : Profiler α) : CurveStep α → Prop
  | .request _ key _ => ValidKey key ∧ (key ∈ p.shard.m_map ∨ p.shard.m_size < p.shard.m_maxSize)
  | _ => True

instance (p : Profiler α) : DecidablePred p.Fits
  | .request _ key _ => inferInstanceAs (Decidable (ValidKey key ∧ (_ ∨ _)))
  | .poll _ | .record _ => .isTrue trivial

end Profiler
end FrozenHot
