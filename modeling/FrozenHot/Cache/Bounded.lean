import FrozenHot.Cache.Accounting

/-! `LRUCache` with at most `maxSize` calls of `insert` and `find` in flight.

    Once `m_size` has reached `maxSize` it stays there: a call lowers it with a compare-and-exchange
    from a larger value only. So a call that has found the container at capacity still finds a node
    to evict, as the other calls in flight have taken fewer than `maxSize` off. And `m_size` passes
    `maxSize` by no more than the calls that had found room before. -/

namespace FrozenHot.Threads
open Schemes

variable {K V : Type} [DecidableEq K] {σ : PlainCache K V} {R : List Ptr} {i : ℕ} {lock : Bool}
variable {c : CallAt K V} {d : Option (CallAt K V)} {p q : Pool (CallAt K V)}
    {T max S S' : ℕ} {o : Told V}
variable {t t' : Threads K V}

/-- Whether a call will increment `m_size`. -/
def willCount : CallAt K V → ℤ
  | .room _ _ _ false | .linked _ => 1
  | _ => 0

omit [DecidableEq K] in
theorem willCount_nonneg (p : Pool (CallAt K V)) : 0 ≤ Pool.total willCount p := by
  refine le_trans (by rw [Pool.total_const]; simp)
    (Pool.total_le_total (f := fun _ => 0) (fun c => ?_) p)
  cases c <;> simp [willCount]
  split <;> simp

/-- The call relies on `m_size` having reached `maxSize`. -/
def sawFull : CallAt K V → Bool
  | .full _ _ _ | .evicting _ _ _ _ | .room _ _ _ true | .overfull _ => true
  | _ => false

/-- A place of `delete_key`. -/
def deletes : CallAt K V → Bool
  | .delete _ | .deleting _ _ | .removed _ _ | .erased => true
  | _ => false

/-- What holds of `m_size` and the calls `p` with at most `T` of them. -/
structure Caps (T max S : ℕ) (p : Pool (CallAt K V)) : Prop where
  few : p.length ≤ T
  cap : (S : ℤ) + Pool.total willCount p ≤ (max + T - 1 : ℕ)
  full : ∀ x ∈ p, sawFull x.2 = true → max ≤ S
  kind : ∀ x ∈ p, deletes x.2 = false

omit [DecidableEq K] in
theorem Caps.perm (hc : Caps T max S p) (hp : p.Perm q) : Caps T max S q :=
  ⟨hp.length_eq ▸ hc.few, Pool.total_perm _ hp ▸ hc.cap, fun x hx => hc.full x (hp.mem_iff.mpr hx),
    fun x hx => hc.kind x (hp.mem_iff.mpr hx)⟩

omit [DecidableEq K] in
/-- From `maxSize` on, `m_size` never drops below it. -/
theorem Goes.stays (hg : Goes max S c d S') (hc : deletes c = false) (hinc : Incs S c)
    (hS : max ≤ S) :
    max ≤ S' := by
  cases hg with
  | counts => rw [sizeInc_of_lt (hinc _ rfl)]; omega
  | deleted => cases hc
  | _ => omega

omit [DecidableEq K] in
theorem Goes.kind {x : CallAt K V} (hg : Goes max S c (some x) S') (hc : deletes c = false) :
    deletes x = false := by
  cases hg <;> first | rfl | cases hc

omit [DecidableEq K] in
/-- Whoever relies on `maxSize` did so before, or has just seen it. -/
theorem Goes.sawFull {x : CallAt K V} (hg : Goes max S c (some x) S') (hx : sawFull x = true) :
    Threads.sawFull c = true ∨ max ≤ S' := by
  cases hg <;> first | exact Or.inl rfl | exact Or.inr (by omega) | cases hx

omit [DecidableEq K] in
/-- A call gets to count only if it has found room. -/
theorem Goes.willCount (hg : Goes max S c d S') (hc : deletes c = false) (hinc : Incs S c) :
    (S' : ℤ) + d.elim 0 Threads.willCount ≤ S + Threads.willCount c ∨
      (S < max ∧ S' = S ∧ d.elim 0 Threads.willCount ≤ 1) := by
  cases hg with
  | room hlt => exact Or.inr ⟨hlt, rfl, le_rfl⟩
  | counts =>
    rw [sizeInc_of_lt (hinc _ rfl)]
    simp [Threads.willCount]
  | deleted => cases hc
  | _ => simp only [Threads.willCount, Option.elim]; omega

omit [DecidableEq K] in
theorem Caps.goes (hc : Caps T max S ((i, c) :: q)) (hg : Goes max S c d S') (hinc : Incs S c) :
    Caps T max S' (d.toList.map (i, ·) ++ q) := by
  have hkind := hc.kind (i, c) (by simp)
  have hfew := hc.few
  have hcap := hc.cap
  have hone : Pool.total Threads.willCount q ≤ q.length := by
    refine (Pool.total_le_total (g := fun _ => 1) (fun c => ?_) q).trans
      (by rw [Pool.total_const]; simp)
    cases c <;> simp [Threads.willCount]
    split <;> simp
  simp only [List.length_cons, Pool.total_cons] at hfew hcap
  have hgoes := hg.willCount hkind hinc
  have hstays := hg.stays hkind hinc
  cases d with
  | none =>
    simp only [Option.toList_none, List.map_nil, List.nil_append, Option.elim] at hgoes ⊢
    exact ⟨by omega, by omega, fun x hx hf => hstays (hc.full x (by simp [hx]) hf),
      fun x hx => hc.kind x (by simp [hx])⟩
  | some d =>
    simp only [Option.toList_some, List.map_cons, List.map_nil, List.singleton_append, Option.elim]
      at hgoes ⊢
    refine ⟨by simpa using hfew, ?_, fun x hx hf => ?_, fun x hx => ?_⟩
    · simp only [Pool.total_cons]; omega
    · rcases List.mem_cons.mp hx with rfl | hx
      · exact (hg.sawFull hf).elim (fun h => hstays (hc.full (i, c) (by simp) h)) id
      · exact hstays (hc.full x (by simp [hx]) hf)
    · rcases List.mem_cons.mp hx with rfl | hx
      · exact hg.kind hkind
      · exact hc.kind x (by simp [hx])

/-- An eviction finds a node. -/
theorem Caps.nonempty (hc : Caps T max σ.m_size ((i, c) :: q)) (hs : Sane σ ((i, c) :: q) R)
    (hT : T ≤ max) (he : evicts c = true) : R ≠ [] := by
  rintro rfl
  have hfull : max ≤ σ.m_size :=
    hc.full (i, c) (by simp) (by cases c <;> simp_all [evicts, sawFull])
  have hown : 0 ≤ owes c := by cases c <;> simp_all [evicts, owes]
  have hless := neg_length_le_owes q
  have hfew := hc.few
  have hsize := hs.size
  simp only [List.length_nil, List.length_cons, Pool.total_cons] at hfew hsize
  omega

/-! ### Whole runs -/

/-- The invariant of the runs with at most `T` calls in flight. -/
structure Bounded (T max : ℕ) (t : Threads K V) : Prop where
  distinct : t.calls.Distinct
  sane : ∃ R, Sane t.shared t.calls R
  caps : Caps T max t.shared.m_size t.calls
  maxSize : t.shared.m_maxSize = max
  fits : t.footprint ≤ 2 ^ 64

theorem bounded_init (T maxSize : ℕ) : Bounded T maxSize (init maxSize : Threads K V) :=
  ⟨List.nodup_nil, ⟨[], sane_init maxSize⟩, ⟨by simp [init], by simp [init, PlainCache.init], nofun,
    nofun⟩, rfl, footprint_init maxSize⟩

/-- A call comes in. -/
theorem Bounded.add (hb : Bounded T max t)
    (hi : i ∉ t.calls.map Prod.fst ∧ t.footprint + 2 ≤ 2 ^ 64) (hT : t.calls.length < T)
    (hc : (∃ k v, c = .insert k v) ∨ ∃ k, c = .find k) :
    Bounded T max { t with calls := t.calls.add i c } := by
  obtain ⟨R, hs⟩ := hb.sane
  have hcap := hb.caps
  have hweight : weight c ≤ 2 := by rcases hc with ⟨k, v, rfl⟩ | ⟨k, rfl⟩ <;> simp [weight]
  refine ⟨List.nodup_cons.mpr ⟨hi.1, hb.distinct⟩, ⟨R, ?_⟩,
    ⟨hT, ?_, fun x hx hf => ?_, fun x hx => ?_⟩, hb.maxSize, (footprint_add hweight).trans hi.2⟩
  · rcases hc with ⟨k, v, rfl⟩ | ⟨k, rfl⟩ <;> exact hs.add rfl rfl rfl
  · rcases hc with ⟨k, v, rfl⟩ | ⟨k, rfl⟩ <;> simpa [Pool.add, willCount] using hcap.cap
  · rcases List.mem_cons.mp hx with rfl | hx
    · rcases hc with ⟨k, v, rfl⟩ | ⟨k, rfl⟩ <;> cases hf
    · exact hcap.full x hx hf
  · rcases List.mem_cons.mp hx with rfl | hx
    · rcases hc with ⟨k, v, rfl⟩ | ⟨k, rfl⟩ <;> rfl
    · exact hcap.kind x hx

/-- A call in flight does its next step. -/
theorem Bounded.go (hb : Bounded T max t) (hT : T ≤ max) (hc : t.calls.get i = some c)
    (hfree : t.Free i c) (lock : Bool) :
    ∃ o t', t.step (.go i lock) = .ok (o, t') ∧ o.quiet = true ∧ Bounded T max t' ∧
      (max ≤ t.shared.m_size → max ≤ t'.shared.m_size) := by
  obtain ⟨R, hs⟩ := hb.sane
  have hkind := hb.caps.kind (i, c) (Pool.mem_of_get hc)
  obtain ⟨o, t', d, q, R', hstep, hw, -, -, hbooks⟩ := hs.toStored.go hb.distinct hc hfree lock
  have hinc : Incs t.shared.m_size c := by
    rintro k rfl
    exact hs.inc hb.distinct hc hb.fits
  have hsup : Supplied t.shared c R :=
    ⟨(hb.caps.perm hw.before).nonempty (hs.perm hw.before) hT, hinc, by rintro rfl; cases hkind⟩
  obtain ⟨hq, hs'⟩ := hbooks hsup hs
  obtain ⟨hmax, hg⟩ := act_goes hw.act
  rw [hb.maxSize] at hg hmax
  exact ⟨o, t', hstep, hq,
    ⟨hw.distinct, ⟨R', hs'⟩, ((hb.caps.perm hw.before).goes hg hinc).perm hw.after.symm, hmax,
      (footprint_went hw).trans hb.fits⟩,
    hg.stays hkind hinc⟩

/-- Every step keeps the invariant, says nothing, and does not let `m_size` fall below `maxSize`. -/
theorem Bounded.step {e : ThreadStep K V} (hb : Bounded T max t) (hT : T ≤ max) (hf : t.Few T e)
    (h : t.step e = .ok (o, t')) :
    Bounded T max t' ∧ o.quiet = true ∧ (max ≤ t.shared.m_size → max ≤ t'.shared.m_size) := by
  cases e with
  | insert i key value => cases h; exact ⟨hb.add hf.1 hf.2 (Or.inl ⟨key, value, rfl⟩), rfl, id⟩
  | find i key => cases h; exact ⟨hb.add hf.1 hf.2 (Or.inr ⟨key, rfl⟩), rfl, id⟩
  | delete i key => exact hf.2.elim
  | go i lock =>
    obtain ⟨c, hc, hfree⟩ := hf.1
    obtain ⟨o', t₁, h1, hq, hb', hstay⟩ := hb.go hT hc hfree lock
    rw [h1] at h
    cases h
    exact ⟨hb', hq, hstay⟩

/-- With no call in flight, `m_size`, the list and the map agree. -/
theorem Sane.quiet (hs : Sane t.shared t.calls R) (hc : t.calls = []) :
    ∃ ks, t.shared.snapshotKeys = .ok ks ∧
    ks.Nodup ∧ t.shared.m_size = ks.length ∧ t.shared.m_map.keys.card = ks.length ∧
    ∀ k, k ∈ t.shared.m_map ↔ k ∈ ks := by
  rw [hc] at hs
  have hsize := hs.size
  simp only [Pool.total_nil, add_zero, Nat.cast_inj] at hsize
  obtain ⟨rows, hi⟩ := hs.store.inv hsize.symm
  refine ⟨rows.map Row.key, hi.snapshot, hi.rows.nodup, by simpa using hi.size, ?_, fun k => ?_⟩
  · simpa using hi.map.card hi.rows.nodup
  · rw [← Finmap.mem_keys]; exact hi.map.mem_keys

/-- With at most `maxSize` calls of `insert` and `find` in flight, in any interleaving: no step of
    theirs goes wrong, `evict` finds a node and its key, `m_size` passes `maxSize` by less than the
    number of calls and never falls below once it is there, and with no call in flight `m_size`, the
    list and the map agree. -/
theorem concurrent_size_accounting {maxSize T : ℕ} (hT : T ≤ maxSize)
    {H : List (ThreadStep K V × Told V)} (hrun : Run Threads.step (Few T) (init maxSize) H t) :
    (∀ x ∈ H, x.2 ≠ .listEmpty ∧ x.2 ≠ .unreachable) ∧
    (∀ e, t.Few T e → ∃ r, t.step e = .ok r) ∧
    t.shared.m_size ≤ maxSize + T - 1 ∧
    (∀ H' t', Run Threads.step (Few T) t H' t' → maxSize ≤ t.shared.m_size →
      maxSize ≤ t'.shared.m_size) ∧
    (t.calls = [] → ∃ ks, t.shared.snapshotKeys = .ok ks ∧ ks.Nodup ∧ t.shared.m_size = ks.length ∧
      t.shared.m_map.keys.card = ks.length ∧ ∀ k, k ∈ t.shared.m_map ↔ k ∈ ks) := by
  obtain ⟨hb, hanswers⟩ := hrun.answers (J := Bounded T maxSize) (A := fun _ o => o.quiet = true)
    (bounded_init T maxSize) fun s e o s' hb hf h => ⟨(hb.step hT hf h).1, (hb.step hT hf h).2.1⟩
  refine ⟨fun x hx => ?_, fun e hf => ?_, ?_, fun H' t' hrun' hS => ?_, fun hc => ?_⟩
  · have := hanswers x hx
    constructor <;> intro h <;> rw [h] at this <;> cases this
  · cases e with
    | insert i key value => exact ⟨_, rfl⟩
    | find i key => exact ⟨_, rfl⟩
    | delete i key => exact ⟨_, rfl⟩
    | go i lock =>
      obtain ⟨c, hc, hfree⟩ := hf.1
      obtain ⟨o, t', h, -⟩ := hb.go hT hc hfree lock
      exact ⟨_, h⟩
  · have hcap := hb.caps.cap
    have hpos := willCount_nonneg t.calls
    omega
  · refine (hrun'.invariant (fun s => Bounded T maxSize s ∧ maxSize ≤ s.shared.m_size)
      ⟨hb, hS⟩ ?_).2
    rintro s e o s' ⟨hb, hS⟩ hf - h
    obtain ⟨hb', -, hstay⟩ := hb.step hT hf h
    exact ⟨hb', hstay hS⟩
  · obtain ⟨R, hs⟩ := hb.sane
    exact hs.quiet hc

/-- Two insertions side by side. -/
theorem concurrent_size_accounting_two : ∃ t : Threads ℕ ℕ, Run Threads.step (Few 2) (init 2)
    [(.insert 0 3 7, .nothing), (.insert 1 4 8, .nothing), (.go 0 true, .nothing),
      (.go 1 true, .nothing), (.go 0 true, .nothing), (.go 1 true, .nothing),
      (.go 0 true, .nothing), (.go 1 true, .nothing), (.go 0 true, .nothing),
      (.go 1 true, .nothing), (.go 0 true, .inserted true), (.go 1 true, .inserted true)] t ∧
    ∃ ks, t.shared.snapshotKeys = .ok ks ∧ t.shared.m_size = ks.length := by
  have hrun : ∃ t : Threads ℕ ℕ, t.calls = [] ∧ Run Threads.step (Few 2) (init 2)
      [(.insert 0 3 7, .nothing), (.insert 1 4 8, .nothing), (.go 0 true, .nothing),
        (.go 1 true, .nothing), (.go 0 true, .nothing), (.go 1 true, .nothing),
        (.go 0 true, .nothing), (.go 1 true, .nothing), (.go 0 true, .nothing),
        (.go 1 true, .nothing), (.go 0 true, .inserted true), (.go 1 true, .inserted true)] t :=
    ⟨_, rfl, .cons (by decide) rfl
      (.cons (by decide) rfl (.cons (by decide) rfl (.cons (by decide) rfl
      (.cons (by decide) rfl (.cons (by decide) rfl (.cons (by decide) rfl (.cons (by decide) rfl
      (.cons (by decide) rfl (.cons (by decide) rfl
        (.cons (by decide) rfl (.cons (by decide) rfl .nil)))))))))))⟩
  obtain ⟨t, hc, hrun⟩ := hrun
  obtain ⟨ks, h1, -, h2, -⟩ := (concurrent_size_accounting (le_refl 2) hrun).2.2.2.2 hc
  exact ⟨t, hrun, ks, h1, h2⟩

end FrozenHot.Threads
