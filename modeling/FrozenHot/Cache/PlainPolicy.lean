import FrozenHot.Cache.PlainSpec
import FrozenHot.Schemes.Policy

/-! The plain caches against their policies.

    A call of a plain cache is a call of the reference cache on the key/value pairs of its rows: the
    relation `Content` is kept by every call, for either outcome of the `try_lock`. Runs follow. -/

namespace FrozenHot
open Schemes

variable {K V : Type} [DecidableEq K]

/-- One call of `LRUCache`; `c.1` is the outcome of the `try_lock` if it is a `find`. -/
def LRUCache.call (σ : PlainCache K V) (c : Bool × Call K V) :
    Except Fault (Resp K V × PlainCache K V) := do
  match c.2 with
  | .find k => let r ← LRUCache.find c.1 σ k; return (.found r.1, r.2)
  | .insert k v => let r ← σ.insert k v; return (.inserted r.1, r.2)
  | .delete k => let σ ← σ.delete_key k; return (.deleted, σ)
  | .keys => let ks ← σ.snapshotKeys; return (.keys ks, σ)

/-- One call of `StrictLRUCache`. -/
def StrictLRUCache.call (σ : PlainCache K V) (c : Call K V) :
    Except Fault (Resp K V × PlainCache K V) := do
  match c with
  | .find k => let r ← StrictLRUCache.find σ k; return (.found r.1, r.2)
  | c => LRUCache.call σ (true, c)

/-- One call of `FIFOCache`. -/
def FIFOCache.call (σ : PlainCache K V) (c : Call K V) :
    Except Fault (Resp K V × PlainCache K V) := do
  match c with
  | .find k => let r ← FIFOCache.find σ k; return (.found r.1, r.2)
  | c => LRUCache.call σ (false, c)

/-- The key/value pair of a row. -/
def Row.pair (r : Row K V) : K × V := (r.key, r.value)

namespace PlainCache

/-- The cache of capacity `cap` holds the pairs `C`, in list order. -/
def Content (cap : ℕ) (σ : PlainCache K V) (C : List (K × V)) : Prop :=
  ∃ R, Inv σ R ∧ C = R.map Row.pair ∧ R.length ≤ cap ∧ σ.m_maxSize = cap

variable {σ : PlainCache K V} {C : List (K × V)} {cap : ℕ} {R : List (Row K V)} {k : K} {v : V}

omit [DecidableEq K] in
theorem keys_pair : (R.map Row.pair).map Prod.fst = R.map Row.key := by simp [Row.pair]

omit [DecidableEq K] in
/-- A key of the rows splits them at its row. -/
theorem split_at (hk : k ∈ R.map Row.key) : ∃ A r B, R = A ++ r :: B ∧ r.key = k := by
  obtain ⟨r, hr, rfl⟩ := List.mem_map.mp hk
  obtain ⟨A, B, rfl⟩ := List.append_of_mem hr
  exact ⟨A, r, B, rfl, rfl⟩

theorem content_init (cap : ℕ) : Content cap (init cap : PlainCache K V) [] :=
  ⟨[], inv_init, rfl, Nat.zero_le _, rfl⟩

theorem content_find (hc : Content cap σ C) (lock : Bool) (k : K) :
    ∃ σ', σ.findWith lock k = .ok ((Policy.find lock C k).1, σ') ∧
      Content cap σ' (Policy.find lock C k).2 := by
  obtain ⟨R, hi, rfl, hle, hcap⟩ := hc
  by_cases hk : k ∈ R.map Row.key
  · obtain ⟨A, r, B, rfl, rfl⟩ := split_at hk
    obtain ⟨σ', h1, h2, h3⟩ := hi.find_hit lock
    have hk' : r.key ∉ (A.map Row.pair ++ B.map Row.pair).map Prod.fst := by
      rw [← List.map_append, keys_pair]; exact hi.rows.key_notMem
    have hp := Policy.find_middle (v := r.value) hk' lock
    rw [List.map_append, List.map_cons, Row.pair, hp]
    refine ⟨σ', h1, _, h3, ?_, ?_, h2.trans hcap⟩
    · cases lock <;> simp [Row.pair]
    · cases lock
      · exact hle
      · exact (List.perm_middle.length_eq).symm.trans_le hle
  · have hp := Policy.find_none (C := R.map Row.pair) (by rwa [keys_pair]) lock
    rw [hp]
    exact ⟨σ, hi.find_miss lock hk, R, hi, rfl, hle, hcap⟩

theorem content_insert (hpos : 1 ≤ cap) (hc : Content cap σ C) (k : K) (v : V) :
    ∃ σ', σ.insert k v = .ok ((Policy.insert cap C k v).1, σ') ∧
      Content cap σ' (Policy.insert cap C k v).2 := by
  obtain ⟨R, hi, rfl, hle, hcap⟩ := hc
  subst hcap
  by_cases hk : k ∈ R.map Row.key
  · obtain ⟨σ', h1, h2, h3⟩ := hi.insert_present hk v
    rw [Policy.insert_present (by rwa [keys_pair])]
    exact ⟨σ', h1, R, h3, rfl, hle, h2⟩
  · obtain ⟨σ', h1, h2, h3⟩ := hi.insert_absent hle hpos hk v
    rw [Policy.insert_absent (by rwa [keys_pair]) hpos (by simpa using hle)]
    refine ⟨σ', h1, _, h3, ?_, ?_, h2⟩
    · rw [List.length_map]; split <;> simp [Row.pair, List.map_dropLast]
    · split <;> simp <;> omega

theorem content_delete (hc : Content cap σ C) (k : K) :
    ∃ σ', σ.delete_key k = .ok σ' ∧ Content cap σ' (Policy.drop C k) := by
  obtain ⟨R, hi, rfl, hle, hcap⟩ := hc
  by_cases hk : k ∈ R.map Row.key
  · obtain ⟨A, r, B, rfl, rfl⟩ := split_at hk
    obtain ⟨σ', h1, h2, h3⟩ := hi.delete_present
    have hk' : r.key ∉ (A.map Row.pair ++ B.map Row.pair).map Prod.fst := by
      rw [← List.map_append, keys_pair]; exact hi.rows.key_notMem
    rw [List.map_append, List.map_cons, Row.pair, Policy.drop_middle hk']
    refine ⟨σ', h1, _, h3, by simp, ?_, h2.trans hcap⟩
    simp only [List.length_append, List.length_cons] at hle ⊢; omega
  · rw [Policy.drop_none (by rwa [keys_pair])]
    exact ⟨σ, hi.delete_absent hk, R, hi, rfl, hle, hcap⟩

/-- Every call answers as the reference cache does. -/
theorem call_simulates (hpos : 1 ≤ cap) :
    Simulates (LRUCache.call (K := K) (V := V)) (Policy.step cap) (fun _ => True)
    (Content cap) := by
  rintro σ C ⟨lock, c⟩ - hc
  cases c with
  | find k =>
    obtain ⟨σ', h1, h2⟩ := content_find hc lock k
    exact ⟨σ', by simp [LRUCache.call, LRUCache.find, h1, Policy.step], h2⟩
  | insert k v =>
    obtain ⟨σ', h1, h2⟩ := content_insert hpos hc k v
    exact ⟨σ', by simp [LRUCache.call, h1, Policy.step], h2⟩
  | delete k =>
    obtain ⟨σ', h1, h2⟩ := content_delete hc k
    exact ⟨σ', by simp [LRUCache.call, h1, Policy.step], h2⟩
  | keys =>
    obtain ⟨R, hi, rfl, hle, hcap⟩ := hc
    refine ⟨σ, ?_, R, hi, rfl, hle, hcap⟩
    simp [LRUCache.call, hi.snapshot, Policy.step, Row.pair]

/-- The list's keys are the map's keys without repetition, and the counter is their number. -/
theorem Content.accounts (hc : Content cap σ C) : ∃ ks, σ.snapshotKeys = .ok ks ∧
    σ.m_size = ks.length ∧ σ.m_map.keys.card = ks.length ∧ ks.length ≤ cap ∧ ks.Nodup ∧
    ks.toFinset = σ.m_map.keys := by
  obtain ⟨R, hi, rfl, hle, -⟩ := hc
  refine ⟨_, hi.snapshot, by simpa using hi.size, ?_, by simpa using hle, hi.rows.nodup, ?_⟩
  · rw [hi.map.card hi.rows.nodup, List.length_map]
  · ext k; rw [List.mem_toFinset]; exact hi.map.mem_keys.symm

end PlainCache

theorem StrictLRUCache.call_eq :
    StrictLRUCache.call (K := K) (V := V) = fun σ c => LRUCache.call σ (true, c) := by
  funext σ c; cases c <;> rfl

theorem FIFOCache.call_eq :
    FIFOCache.call (K := K) (V := V) = fun σ c => LRUCache.call σ (false, c) := by
  funext σ c; cases c <;> rfl

/-- `StrictLRUCache` is the reference LRU cache and `FIFOCache` the reference FIFO cache; `LRUCache`
    is the one when every `try_lock` succeeds and the other when every one fails, and whatever the
    outcomes are its list, map and counter agree. -/
theorem plain_caches_follow_policies (maxSize : ℕ) (hpos : 1 ≤ maxSize) :
    (∀ cs : List (Call K V), ∃ σ, exec StrictLRUCache.call (PlainCache.init maxSize) cs =
      .ok ((answers (Policy.step maxSize) [] (cs.map (true, ·))).1, σ)) ∧
    (∀ cs : List (Call K V), ∃ σ, exec FIFOCache.call (PlainCache.init maxSize) cs =
      .ok ((answers (Policy.step maxSize) [] (cs.map (false, ·))).1, σ)) ∧
    (∀ cs : List (Call K V), exec LRUCache.call (PlainCache.init maxSize) (cs.map (true, ·)) =
      exec StrictLRUCache.call (PlainCache.init maxSize) cs) ∧
    (∀ cs : List (Call K V), exec LRUCache.call (PlainCache.init maxSize) (cs.map (false, ·)) =
      exec FIFOCache.call (PlainCache.init maxSize) cs) ∧
    (∀ cs : List (Bool × Call K V), ∃ os σ ks,
      exec LRUCache.call (PlainCache.init maxSize) cs = .ok (os, σ) ∧ σ.snapshotKeys = .ok ks ∧
      σ.m_size = ks.length ∧ σ.m_map.keys.card = ks.length ∧ ks.length ≤ maxSize ∧ ks.Nodup ∧
      ks.toFinset = σ.m_map.keys) := by
  have hrun : ∀ cs : List (Bool × Call K V), ∃ σ, exec LRUCache.call (PlainCache.init maxSize) cs =
      .ok ((answers (Policy.step maxSize) [] cs).1, σ) ∧
      PlainCache.Content maxSize σ (answers (Policy.step maxSize) [] cs).2 := fun cs =>
    (PlainCache.call_simulates hpos).exec (fun _ _ => trivial) (PlainCache.content_init maxSize)
  have hstrict := fun cs : List (Call K V) =>
    exec_map LRUCache.call (true, ·) cs (PlainCache.init maxSize)
  have hfifo := fun cs : List (Call K V) =>
    exec_map LRUCache.call (false, ·) cs (PlainCache.init maxSize)
  rw [← StrictLRUCache.call_eq] at hstrict
  rw [← FIFOCache.call_eq] at hfifo
  refine ⟨fun cs => ?_, fun cs => ?_, hstrict, hfifo, fun cs => ?_⟩
  · obtain ⟨σ, h1, -⟩ := hrun (cs.map (true, ·))
    exact ⟨σ, (hstrict cs).symm.trans h1⟩
  · obtain ⟨σ, h1, -⟩ := hrun (cs.map (false, ·))
    exact ⟨σ, (hfifo cs).symm.trans h1⟩
  · obtain ⟨σ, h1, hc⟩ := hrun cs
    obtain ⟨ks, hks⟩ := hc.accounts
    exact ⟨_, σ, ks, h1, hks⟩

/-- Three inserts and a promotion into two places: the strict cache keeps the key it promoted. -/
theorem plain_caches_follow_policies_two : ∃ σ,
    exec StrictLRUCache.call (PlainCache.init 2 : PlainCache ℕ ℕ)
      [.insert 7 70, .insert 8 80, .find 7, .insert 9 90, .keys] =
    .ok ([.inserted true, .inserted true, .found (some 70), .inserted true, .keys [9, 7]], σ) :=
  (plain_caches_follow_policies 2 (by decide)).1 _

end FrozenHot
