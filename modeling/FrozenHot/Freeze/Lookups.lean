import FrozenHot.Freeze.Serving
import FrozenHot.Schemes.Front
import FrozenHot.Schemes.Pool

/-! Lookups that run while a shard is frozen and thawed.

    `find` reads the flags, the fast hash, `tier_ready` once more and the map without a lock, and
    `construct_tier` and `deconstruct` do most of their work without one: the fast hash is filled
    after the lists were spliced and before `tier_ready` is set, and cleared after the flags were
    reset. Here each of these accesses is a step, and any number of calls of `find` run at the same
    time; inserts and a freeze of a part are single steps. -/

namespace FrozenHot
open Schemes ListShard

variable {α : Type}

/-- The keys that clients use. -/
abbrev UsedKey := { k : ℕ // ValidKey k }

namespace Shard

/-- An iteration of the loop of `construct_tier`. -/
def tierStep (σ : Shard α) (temp_node : Ptr) : Except Fault (Shard α × Ptr) := do
  let key ← keyOf σ.heap temp_node
  let next ← σ.heap.getNext temp_node
  if key = TOMB_KEY then
    let h ← delinkChecked σ.heap temp_node
    return ({ σ with heap := h.free temp_node }, next)
  else
    match σ.m_map.lookup key with
    | none =>
      let h ← discard σ.heap temp_node
      return ({ σ with heap := h }, next)
    | some e => return ({ σ with m_fasthash := σ.m_fasthash.put key e.m_value }, next)

/-- `construct_tier` from an iteration on. -/
def tierFrom (fuel : ℕ) (σ : Shard α) (temp_node : Ptr) : Except Fault (Shard α) := do
  let σ ← tierFill fuel σ temp_node
  return { σ with tier_ready := true, fast_hash_construct := false }

/-- `deconstruct` up to the end of its locked section, and whether there is something to clear. -/
def thawLocked (σ : Shard α) : Except Fault (Bool × Shard α) := do
  let first ← σ.heap.getNext .m_fast_head
  let last ← σ.heap.getPrev .m_fast_tail
  assert (first = .m_fast_tail ↔ last = .m_fast_head)
  if first = .m_fast_tail then return (false, σ)
  let h ← thawSplice σ.heap
  return (true, { σ with
    heap := h
    tier_no_insert := if σ.tier_ready then false else σ.tier_no_insert
    tier_ready := false
    fast_hash_ready := false })

/-- What lookups read. -/
def front (σ : Shard α) : Front UsedKey (Option α) where
  table k := (σ.m_map.lookup k.1).map HashMapValue.m_value
  index k := (σ.m_fasthash.get k.1).map some
  ready := σ.isFrozen
  total := σ.tier_ready

end Shard

/-- Where the controller is: between calls, in the loop of `construct_tier`, or before the last line
    of `deconstruct`. -/
inductive Stage where
  | idle
  | filling (temp_node : Ptr)
  | thawing
  deriving DecidableEq

/-- A shard with lookups under way. -/
structure Lookups (α : Type) where
  shard : Shard α
  stage : Stage
  calls : Pool (Flight UsedKey (Option α))

/-- A call of `find` begins or goes on, an insertion, or a step of the controller; `lock` is the
    outcome of the `try_lock` of `find`. -/
inductive LookupStep (α : Type) where
  | find (i : ℕ) (key : UsedKey)
  | go (i : ℕ) (lock : Bool)
  | insert (key : UsedKey) (value : α)
  | construct_tier
  | fill
  | construct_ratio (FC_size : ℕ)
  | deconstruct
  | clear

namespace Lookups

def init (maxSize : ℕ) : Lookups α := ⟨Shard.init maxSize, .idle, []⟩

/-- The next access of a call of `find`. -/
def access (κ : FHList) (lock : Bool) (σ : Shard α) (f : Flight UsedKey (Option α)) :
    Except Fault ((Option (Option α) ⊕ Probe) × Shard α) := do
  match f.probe with
  | .flags => return (.inr (if σ.tier_ready || σ.fast_hash_ready then .index else .table), σ)
  | .index => match σ.m_fasthash.get f.key with
    | some v => return (.inl (some (some v)), σ)
    | none => return (.inr .total, σ)
  | .total => return (if σ.tier_ready then .inl none else .inr .table, σ)
  | .table =>
    let r ← Shard.findSlow (κ.promotes lock) σ f.key
    return (.inl r.1, r.2)

/-- The shard and the stage after a step; every call under way observes the change. -/
def become (s : Lookups α) (σ : Shard α) (stage : Stage) : Lookups α :=
  ⟨σ, stage, s.calls.mapPlaces (Flight.observe s.shard.front σ.front)⟩

/-- A step, with the call that returned, if any, and its answer. -/
def step (κ : FHList) (s : Lookups α) :
    LookupStep α → Except Fault (Option (Flight UsedKey (Option α) × Option (Option α)) × Lookups α)
  | .find i key => return (none, { s with calls := s.calls.add i (.start s.shard.front key) })
  | .go i lock => do
    match s.calls.get i with
    | none => throw .diverge
    | some f =>
      let r ← access κ lock s.shard f
      match r.1 with
      | .inl a => return (some (f, a), become { s with calls := s.calls.remove i } r.2 s.stage)
      | .inr p => return (none, become { s with calls := s.calls.set i { f with probe := p } } r.2
          s.stage)
  | .insert key value => do
    let r ← s.shard.insert key (some value)
    return (none, s.become r.2 s.stage)
  | .construct_tier => do
    let σ ← s.shard.tierSplice
    return (none, s.become σ (.filling (← σ.heap.getNext .m_fast_head)))
  | .fill => do
    match s.stage with
    | .filling temp_node =>
      if temp_node = .m_fast_tail then
        return (none, s.become { s.shard with tier_ready := true, fast_hash_construct := false }
          .idle)
      else
        let r ← s.shard.tierStep temp_node
        return (none, s.become r.1 (.filling r.2))
    | _ => throw .diverge
  | .construct_ratio FC_size => do
    let σ ← s.shard.construct_ratio FC_size
    return (none, s.become σ s.stage)
  | .deconstruct => do
    let r ← s.shard.thawLocked
    return (none, s.become r.2 (if r.1 then .thawing else .idle))
  | .clear => return (none, s.become { s.shard with m_fasthash := ∅ } .idle)

/-- The controller makes one call after the other, and freezes a shard that is thawed, as a whole
    only if it holds a key; a key is inserted when it is not there; and a lookup that comes to the
    map of a frozen shard, whether all of it is frozen or a part, does not promote. -/
def Allowed (κ : FHList) (s : Lookups α) : LookupStep α → Prop
  | .find i _ => s.calls.get i = none
  | .go i lock => ∀ f, s.calls.get i = some f → f.probe = .table → s.shard.isFrozen = true →
      κ.promotes lock = false
  | .insert key _ => (key : ℕ) ∉ s.shard.m_map
  | .construct_tier => s.stage = .idle ∧ s.shard.isFrozen = false ∧ s.shard.m_map ≠ ∅
  | .fill => ∃ temp_node, s.stage = .filling temp_node
  | .construct_ratio _ => s.stage = .idle ∧ s.shard.isFrozen = false
  | .deconstruct => s.stage = .idle
  | .clear => s.stage = .thawing

instance (κ : FHList) (s : Lookups α) : DecidablePred (Allowed κ s)
  | .find i _ => decidable_of_iff _ (Option.isNone_iff_eq_none (o := s.calls.get i))
  | .go i _ => inferInstanceAs (Decidable (∀ f ∈ s.calls.get i, _ → _ → _))
  | .insert key _ => inferInstanceAs (Decidable ((key : ℕ) ∉ s.shard.m_map))
  | .construct_tier => inferInstanceAs (Decidable (s.stage = .idle ∧ _ = false ∧ s.shard.m_map ≠ ∅))
  | .fill => match h : s.stage with
    | .filling temp_node => .isTrue ⟨temp_node, h⟩
    | .idle | .thawing => .isFalse (by simp [Allowed, h])
  | .construct_ratio _ => inferInstanceAs (Decidable (s.stage = .idle ∧ _ = false))
  | .deconstruct => inferInstanceAs (Decidable (s.stage = .idle))
  | .clear => inferInstanceAs (Decidable (s.stage = .thawing))

end Lookups

/-! ### The steps of a freeze and of a thaw -/

namespace ListShard
variable {τ : ListShard α} {k : ℕ}

/-- The lists with another fast hash. -/
def withHash (τ : ListShard α) (t : FastHash α) : ListShard α := { τ with m_fasthash := t }

theorem evict_withHash (τ : ListShard α) (t : FastHash α) (held : Option ℕ) :
    (τ.withHash t).evict held = (τ.evict held).map fun r => (r.1, r.2.withHash t) := by
  unfold evict withHash
  dsimp only
  split
  · rfl
  · split
    · split <;> rfl
    · rfl

theorem correct_withHash (τ : ListShard α) (t : FastHash α) (n : ℕ) :
    (τ.withHash t).correct n = (τ.correct n).map (·.withHash t) := by
  unfold correct
  rw [evict_withHash, show (τ.withHash t).m_maxSize = τ.m_maxSize from rfl]
  split
  · cases τ.evict none with
    | none => rfl
    | some r =>
      obtain ⟨b, r⟩ := r
      cases b <;> rfl
  · rfl

theorem settle_withHash (τ : ListShard α) (t : FastHash α) (n : ℕ) (d : Bool) :
    (τ.withHash t).settle n d = (τ.settle n d).map (·.withHash t) := by
  have hcount : (τ.withHash t).count d = (τ.count d).withHash t := by
    unfold count
    split <;> rfl
  rw [settle, hcount, correct_withHash]
  rfl

theorem makeRoom_withHash (τ : ListShard α) (t : FastHash α) (k : ℕ) :
    (τ.withHash t).makeRoom k = (τ.makeRoom k).map fun r => (r.1, r.2.withHash t) := by
  unfold makeRoom
  rw [evict_withHash, show (τ.withHash t).m_maxSize = τ.m_maxSize from rfl,
    show (τ.withHash t).m_size = τ.m_size from rfl]
  split <;> rfl

/-- `insert` does not look at the fast hash. -/
theorem insert_withHash (τ : ListShard α) (t : FastHash α) (k : ℕ) (v : Option α) :
    (τ.withHash t).insert k v = (τ.insert k v).map fun r => (r.1, r.2.withHash t) := by
  unfold insert
  rw [show (τ.withHash t).tier_no_insert = τ.tier_no_insert from rfl,
    show (τ.withHash t).m_map = τ.m_map from rfl,
    show (τ.withHash t).place k v = (τ.place k v).withHash t from rfl, makeRoom_withHash]
  split
  · rfl
  · split
    · rfl
    · cases (τ.place k v).makeRoom k with
      | none => rfl
      | some r =>
        have hsettle := settle_withHash { r.2 with main := ⟨.node τ.fresh, k⟩ :: r.2.main }
          t τ.m_size r.1
        simp only [Option.map_some, Option.bind_eq_bind, Option.bind_some]
        refine (congrArg (Option.bind · _) hsettle).trans ?_
        cases ({ r.2 with main := ⟨.node τ.fresh, k⟩ :: r.2.main } : ListShard α).settle
          τ.m_size r.1 <;> rfl

theorem findSlow_withHash (τ : ListShard α) (t : FastHash α) (lock : Bool) (k : ℕ) :
    (τ.withHash t).findSlow lock k = ((τ.findSlow lock k).1, (τ.findSlow lock k).2.withHash t) := by
  unfold findSlow
  rw [show (τ.withHash t).m_map = τ.m_map from rfl,
    show (τ.withHash t).fast_hash_construct = τ.fast_hash_construct from rfl]
  split
  · rfl
  · split
    · unfold promote
      rw [show (τ.withHash t).items = τ.items from rfl]
      split <;> rfl
    · rfl

/-- So it leaves the fast hash alone. -/
theorem insert_fasthash {r : Bool × ListShard α} {v : Option α} (h : τ.insert k v = some r) :
    r.2.m_fasthash = τ.m_fasthash := by
  have heq := insert_withHash τ τ.m_fasthash k v
  rw [show τ.withHash τ.m_fasthash = τ from rfl, h, Option.map_some, Option.some.injEq] at heq
  rw [heq]
  rfl

theorem findSlow_core (τ : ListShard α) (lock : Bool) (k : ℕ) :
    (τ.findSlow lock k).2.toCore = τ.toCore := by
  unfold findSlow
  split
  · rfl
  · split
    · exact promote_core τ _
    · rfl

/-- The map lookup of a `find`: a promotion in a thawed shard, and none in a frozen one. -/
theorem Serving.findSlow (hs : Serving τ) (ho : Own τ) {lock : Bool}
    (hlock : τ.isFrozen = true → lock = false) (k : ℕ) :
    Serving (τ.findSlow lock k).2 := by
  cases hfr : τ.isFrozen with
  | true =>
    rw [hlock hfr]
    unfold ListShard.findSlow
    split <;> exact hs
  | false =>
    have heq : τ.find lock k = τ.findSlow lock k := by
      unfold ListShard.find
      rw [show (τ.tier_ready || τ.fast_hash_ready) = false from hfr]
      rfl
    rw [← heq]
    exact hs.find ho lock k

end ListShard

namespace Shard
variable {σ σ' : Shard α} {n n' : Ptr} {fuel k : ℕ} {τ : ListShard α}

theorem tierFill_succ (fuel : ℕ) (σ : Shard α) (n : Ptr) : tierFill (fuel + 1) σ n =
    if n = .m_fast_tail then .ok σ else tierStep σ n >>= fun r => tierFill fuel r.1 r.2 := by
  rw [tierFill]
  split
  · rfl
  · unfold tierStep
    cases keyOf σ.heap n with
    | error e => rfl
    | ok key =>
      simp only [ok_bind]
      cases σ.heap.getNext n with
      | error e => rfl
      | ok next =>
        simp only [ok_bind]
        split
        · cases delinkChecked σ.heap n <;> rfl
        · cases σ.m_map.lookup key with
          | some e => rfl
          | none =>
            dsimp only
            cases discard σ.heap n <;> rfl

/-- An iteration changes the heap, or copies an entry of the map to the fast hash. -/
theorem tierStep_core (h : tierStep σ n = .ok (σ', n')) : σ'.toCore = σ.toCore ∨
    ∃ key e, σ.m_map.lookup key = some e ∧
    σ'.toCore = { σ.toCore with m_fasthash := σ.m_fasthash.put key e.m_value } := by
  unfold tierStep at h
  obtain ⟨key, -, h⟩ := bind_eq_ok.mp h
  obtain ⟨next, -, h⟩ := bind_eq_ok.mp h
  split at h
  · obtain ⟨h₁, -, h⟩ := bind_eq_ok.mp h
    cases h
    exact Or.inl rfl
  · split at h
    · obtain ⟨h₁, -, h⟩ := bind_eq_ok.mp h
      cases h
      exact Or.inl rfl
    · rename_i e he
      cases h
      exact Or.inr ⟨key, e, he, rfl⟩

theorem deconstruct_eq (σ : Shard α) : σ.deconstruct =
    (σ.thawLocked).map fun r => if r.1 then { r.2 with m_fasthash := ∅ } else r.2 := by
  unfold deconstruct thawLocked
  cases σ.heap.getNext .m_fast_head with
  | error e => rfl
  | ok first =>
    simp only [ok_bind]
    cases σ.heap.getPrev .m_fast_tail with
    | error e => rfl
    | ok last =>
      simp only [ok_bind]
      cases assert (first = .m_fast_tail ↔ last = .m_fast_head) with
      | error e => rfl
      | ok u =>
        simp only [ok_bind]
        split
        · rfl
        · cases thawSplice σ.heap <;> rfl

theorem thawLocked_fasthash {b : Bool} (h : σ.thawLocked = .ok (b, σ')) :
    σ'.m_fasthash = σ.m_fasthash := by
  unfold thawLocked at h
  obtain ⟨first, -, h⟩ := bind_eq_ok.mp h
  obtain ⟨last, -, h⟩ := bind_eq_ok.mp h
  obtain ⟨-, -, h⟩ := bind_eq_ok.mp h
  split at h
  · cases h
    rfl
  · obtain ⟨h₁, -, h⟩ := bind_eq_ok.mp h
    cases h
    rfl

theorem Rep.withHash (hr : Rep none σ τ) (t : FastHash α) :
    Rep none { σ with m_fasthash := t } (τ.withHash t) := by
  refine ⟨?_, hr.holds.congr rfl rfl, hr.no_curve⟩
  show ({ σ.toCore with m_fasthash := t } : Core α) = { τ.toCore with m_fasthash := t }
  rw [hr.core]

/-- The shard is what its lists say, and serves. -/
def Served (σ : Shard α) : Prop := ∃ τ, Rep none σ τ ∧ Serving τ

/-- What lookups read of a shard between calls is sound. -/
theorem Served.sound (hs : Served σ) : σ.front.Sound := by
  obtain ⟨τ, hr, hs⟩ := hs
  have hcore := hr.core
  refine ⟨fun _ k x hx => ?_, fun ht k hx => ?_⟩
  · obtain ⟨v, hv, rfl⟩ := Option.map_eq_some_iff.mp hx
    show (σ.m_map.lookup k.1).map HashMapValue.m_value = _
    rw [hcore] at hv ⊢
    exact hs.agrees k v k.2 hv
  · have hnone : σ.m_fasthash.get k.1 = none := Option.map_eq_none_iff.mp hx
    show (σ.m_map.lookup k.1).map HashMapValue.m_value = none
    rw [show σ.front.total = σ.tier_ready from rfl] at ht
    rw [hcore] at hnone ht ⊢
    rw [Option.map_eq_none_iff, Finmap.lookup_eq_none]
    exact hs.total ht hnone

theorem front_congr (h : σ'.toCore = σ.toCore) : σ'.front = σ.front := by
  unfold front isFrozen
  rw [h]

end Shard

namespace Lookups
open Shard
variable {κ : FHList} {s s' : Lookups α} {σ σ' : Shard α} {k : ℕ}

/-! ### The invariant -/

/-- In the loop of `construct_tier`: the rest of the loop leads to a shard that serves. -/
structure Filling (σ : Shard α) (temp_node : Ptr) : Prop where
  rest : ∃ fuel σ', tierFrom fuel σ temp_node = .ok σ' ∧ Served σ'
  valid : ∀ k ∈ σ.m_map, ValidKey k
  flags : σ.tier_ready = false ∧ σ.fast_hash_ready = false ∧ σ.fast_hash_construct = true ∧
    σ.tier_no_insert = true

/-- After the locked section of `deconstruct`: but for the fast hash the shard serves, and nobody
    asks the fast hash. -/
structure Thawing (σ : Shard α) : Prop where
  served : Served { σ with m_fasthash := ∅ }
  thawed : σ.isFrozen = false

def Steady (σ : Shard α) : Stage → Prop
  | .idle => Served σ
  | .filling temp_node => Filling σ temp_node
  | .thawing => Thawing σ

theorem Steady.sound {stage : Stage} (hs : Steady σ stage) : σ.front.Sound := by
  cases stage with
  | idle => exact Served.sound hs
  | filling n =>
    obtain ⟨h1, h2, -⟩ := hs.flags
    exact Front.sound_of_unused
      (by show (σ.tier_ready || σ.fast_hash_ready) = false; rw [h1, h2]; rfl) h1
  | thawing => exact Front.sound_of_unused hs.thawed (Bool.or_eq_false_iff.mp hs.thawed).1

/-- The invariant: what a call under way has read so far can still be justified. -/
structure Inv (s : Lookups α) : Prop where
  steady : Steady s.shard s.stage
  fits : ∀ x ∈ s.calls, x.2.Fits s.shard.front

theorem inv_init (maxSize : ℕ) : Inv (init maxSize : Lookups α) :=
  ⟨⟨_, rep_init maxSize, serving_init maxSize⟩, by simp [init]⟩

theorem Inv.become {stage : Stage} (hi : Inv s) (hsteady : Steady σ stage)
    (hc : s.shard.front.Copies σ.front) :
    Inv (s.become σ stage) := by
  exact ⟨hsteady, Pool.forall_mapPlaces (P := Flight.Fits σ.front) |>.mpr fun x hx =>
    (hi.fits x hx).observe hc⟩

/-! ### The steps -/

/-- The map lookup leaves the tables alone. -/
theorem Steady.findSlow {stage : Stage} {r : Option (Option α) × Shard α} {lock : Bool}
    (hs : Steady σ stage) (hlock : σ.isFrozen = true → lock = false)
    (h : Shard.findSlow lock σ k = .ok r) :
    r.1 = (σ.m_map.lookup k).map HashMapValue.m_value ∧ r.2.toCore = σ.toCore ∧
    Steady r.2 stage := by
  cases stage with
  | idle =>
    obtain ⟨τ, hr, hserve⟩ := hs
    obtain ⟨σ', h', hr'⟩ := hr.findSlow lock k
    cases h.symm.trans h'
    refine ⟨?_, ?_, _, hr', hserve.findSlow (own_of_rep hr)
      (fun hfr => hlock (by rw [hr.isFrozen]; exact hfr)) k⟩
    · rw [findSlow_fst, hr.core]
    · rw [hr'.core, findSlow_core, hr.core]
  | filling n =>
    have hself : r = ((σ.m_map.lookup k).map HashMapValue.m_value, σ) := by
      unfold Shard.findSlow at h
      cases hl : σ.m_map.lookup k with
      | none =>
        rw [hl] at h
        cases h
        rfl
      | some e =>
        rw [hl] at h
        simp only [hs.flags.2.2.1, if_true, pure_eq_ok] at h
        cases h
        rfl
    subst hself
    exact ⟨rfl, rfl, hs⟩
  | thawing =>
    obtain ⟨⟨τ, hr, hserve⟩, hfr⟩ := hs
    have hr₁ : Rep none σ (τ.withHash σ.m_fasthash) := hr.withHash σ.m_fasthash
    obtain ⟨σ', h', hr'⟩ := hr₁.findSlow lock k
    cases h.symm.trans h'
    rw [findSlow_withHash] at hr'
    have hcore : σ'.toCore = σ.toCore := by
      rw [hr'.core, hr₁.core]
      show ({ (τ.findSlow lock k).2.toCore with m_fasthash := σ.m_fasthash } : Core α) =
        { τ.toCore with m_fasthash := σ.m_fasthash }
      rw [findSlow_core]
    refine ⟨?_, hcore, ⟨_, ?_, hserve.findSlow (own_of_rep hr) (fun hfr' => hlock ?_) k⟩, ?_⟩
    · rw [findSlow_withHash, findSlow_fst, hr₁.core]
      rfl
    · have hfast : ((τ.findSlow lock k).2.withHash σ.m_fasthash).withHash ∅ =
          (τ.findSlow lock k).2 := by
        have hempty : (τ.findSlow lock k).2.m_fasthash = ∅ := by
          rw [findSlow_core, ← hr.core]
        show ({ (τ.findSlow lock k).2 with m_fasthash := ∅ } : ListShard α) = _
        rw [← hempty]
      exact hfast ▸ hr'.withHash ∅
    · rw [hr₁.isFrozen]
      exact hfr'
    · rw [Shard.isFrozen, hcore]
      exact hfr

/-- What a call of `find` reads. -/
theorem Steady.access {stage : Stage} {f : Flight UsedKey (Option α)} {lock : Bool}
    {r : (Option (Option α) ⊕ Probe) × Shard α} (hs : Steady σ stage)
    (hlock : f.probe = .table → σ.isFrozen = true → κ.promotes lock = false)
    (h : access κ lock σ f = .ok r) :
    r.1 = f.probe.read σ.front f.key ∧ r.2.front = σ.front ∧ Steady r.2 stage := by
  unfold Lookups.access at h
  cases hp : f.probe with
  | flags =>
    rw [hp] at h
    cases h
    exact ⟨rfl, rfl, hs⟩
  | index =>
    rw [hp] at h
    dsimp only at h
    cases hg : σ.m_fasthash.get f.key.1 with
    | some v =>
      rw [hg] at h
      cases h
      refine ⟨?_, rfl, hs⟩
      simp only [Probe.read, Shard.front, hg, Option.map_some]
    | none =>
      rw [hg] at h
      cases h
      refine ⟨?_, rfl, hs⟩
      simp only [Probe.read, Shard.front, hg, Option.map_none]
  | total =>
    rw [hp] at h
    cases h
    exact ⟨rfl, rfl, hs⟩
  | table =>
    rw [hp] at h
    obtain ⟨q, hq, h⟩ := bind_eq_ok.mp h
    cases h
    obtain ⟨hval, hcore, hs'⟩ := hs.findSlow (hlock hp) hq
    exact ⟨congrArg Sum.inl hval, front_congr hcore, hs'⟩

theorem Steady.insert {stage : Stage} {key : UsedKey} {v : α} {r : Bool × Shard α}
    (hs : Steady σ stage) (hm : (key : ℕ) ∉ σ.m_map) (h : σ.insert key (some v) = .ok r) :
    Steady r.2 stage ∧ r.2.m_fasthash = σ.m_fasthash := by
  cases stage with
  | idle =>
    obtain ⟨τ, hr, hserve⟩ := hs
    obtain ⟨τ', hins, hserve', -⟩ := hserve.insert (v := v) key.2 (by rw [← hr.core]; exact hm)
    obtain ⟨σ', h', hr'⟩ := hr.insert key.2 hins
    cases h.symm.trans h'
    refine ⟨⟨τ', hr', hserve'⟩, ?_⟩
    rw [hr'.core, hr.core]
    exact insert_fasthash hins
  | filling n =>
    rw [Shard.insert, if_pos hs.flags.2.2.2] at h
    cases h
    exact ⟨hs, rfl⟩
  | thawing =>
    obtain ⟨⟨τ, hr, hserve⟩, hfr⟩ := hs
    have hr₁ : Rep none σ (τ.withHash σ.m_fasthash) := hr.withHash σ.m_fasthash
    have hmτ : (key : ℕ) ∉ τ.m_map := by
      rw [hr₁.core] at hm
      exact hm
    obtain ⟨τ', hins, hserve', hfr'⟩ := hserve.insert (v := v) key.2 hmτ
    have hins₁ := insert_withHash τ σ.m_fasthash key (some v)
    rw [hins, Option.map_some] at hins₁
    obtain ⟨σ', h', hr'⟩ := hr₁.insert key.2 hins₁
    cases h.symm.trans h'
    have hempty : τ'.m_fasthash = ∅ := by
      rw [insert_fasthash hins, ← hr.core]
    refine ⟨⟨⟨τ', ?_, hserve'⟩, ?_⟩, ?_⟩
    · have hfast : (τ'.withHash σ.m_fasthash).withHash ∅ = τ' := by
        show ({ τ' with m_fasthash := ∅ } : ListShard α) = τ'
        rw [← hempty]
      exact hfast ▸ hr'.withHash ∅
    · rw [hr'.isFrozen]
      rw [hr₁.isFrozen] at hfr
      exact hfr'.trans hfr
    · rw [hr'.core]
      rfl

theorem Inv.construct_tier (hi : Inv s) (hidle : s.stage = .idle) (hfr : s.shard.isFrozen = false)
    (hm : s.shard.m_map ≠ ∅) {o : Option (Flight UsedKey (Option α) × Option (Option α))}
    (h : step κ s .construct_tier = .ok (o, s')) :
    Inv s' ∧ o = none := by
  obtain ⟨σ₁, hsplice, h⟩ := bind_eq_ok.mp h
  obtain ⟨n, hnext, h⟩ := bind_eq_ok.mp h
  cases h
  have hserved : Served s.shard := by
    have := hi.steady
    rwa [hidle] at this
  obtain ⟨τ, hr, hs⟩ := hserved
  obtain ⟨htier, hready⟩ := Bool.or_eq_false_iff.mp hfr
  -- the locked section touches the heap and two flags
  have hcore : σ₁.toCore = { s.shard.toCore with
      fast_hash_construct := true, tier_no_insert := true } := by
    obtain ⟨-, -, hsplice⟩ := bind_eq_ok.mp hsplice
    obtain ⟨h₁, -, hsplice⟩ := bind_eq_ok.mp hsplice
    cases hsplice
    rfl
  obtain ⟨τ', hτ, hs', -⟩ := hs.construct_tier (by rw [← hr.isFrozen]; exact hfr)
    (by rw [← hr.core]; exact hm)
  obtain ⟨σ', htierσ, hr'⟩ := hr.construct_tier hτ
  rw [Shard.construct_tier, hsplice, ok_bind, Shard.tierRest, hnext, ok_bind] at htierσ
  refine ⟨hi.become ⟨⟨σ₁.fresh + 1, σ', htierσ, τ', hr', hs'⟩, fun k hk => ?_,
    ?_⟩ (Front.copies_of_index ?_), rfl⟩
  · refine hs.wired.sound.listed.valid k ?_
    rw [hcore] at hk
    rw [← hr.core]
    exact hk
  · rw [hcore]
    exact ⟨htier, hready, rfl, rfl⟩
  · unfold Shard.front
    rw [hcore]

theorem Inv.fill (hi : Inv s) {n : Ptr} (hstage : s.stage = .filling n)
    {o : Option (Flight UsedKey (Option α) × Option (Option α))}
    (h : step κ s .fill = .ok (o, s')) : Inv s' ∧ o = none := by
  have hfill : Filling s.shard n := by
    have := hi.steady
    rwa [hstage] at this
  obtain ⟨⟨fuel, σ', hrest, hserved⟩, hvalid, hflags⟩ := hfill
  simp only [step, hstage] at h
  cases fuel with
  | zero => cases hrest
  | succ fuel =>
    rw [Shard.tierFrom, tierFill_succ] at hrest
    split at h
    · rename_i hn
      rw [if_pos hn, ok_bind] at hrest
      cases hrest
      cases h
      exact ⟨hi.become hserved (Front.copies_of_index rfl), rfl⟩
    · rename_i hn
      rw [if_neg hn] at hrest
      obtain ⟨⟨σ₁, n'⟩, hstep, h⟩ := bind_eq_ok.mp h
      cases h
      rw [hstep, ok_bind] at hrest
      have hcopies : s.shard.front.Copies σ₁.front ∧ (∀ k ∈ σ₁.m_map, ValidKey k) ∧
          σ₁.tier_ready = false ∧
          σ₁.fast_hash_ready = false ∧ σ₁.fast_hash_construct = true ∧
              σ₁.tier_no_insert = true := by
        rcases tierStep_core hstep with hcore | ⟨key, e, he, hcore⟩
        · rw [hcore]
          exact ⟨Front.copies_of_index (by rw [front_congr hcore]), hvalid, hflags⟩
        · have hkey := hvalid key (Finmap.mem_iff.mpr ⟨e, he⟩)
          refine ⟨fun k x hx => ?_, by rw [hcore]; exact hvalid, by rw [hcore]; exact hflags⟩
          obtain ⟨v, hv, rfl⟩ := Option.map_eq_some_iff.mp hx
          rw [hcore] at hv
          dsimp only at hv
          rw [FastHash.get_valid k.2, FastHash.lookup_put hkey] at hv
          have hold : (s.shard.m_fasthash.lookup k.1).join = some v →
              s.shard.front.index k = some (some v) := fun h => by
            show (s.shard.m_fasthash.get k.1).map some = _
            rw [FastHash.get_valid k.2, h]
            rfl
          split at hv
          · rename_i hk
            cases hl : s.shard.m_fasthash.lookup key with
            | some w =>
              rw [hl, Option.some_or] at hv
              exact Or.inl (hold (by rw [hk, hl]; exact hv))
            | none =>
              rw [hl, Option.none_or, Option.join_some] at hv
              refine Or.inr ?_
              show (σ₁.m_map.lookup k.1).map HashMapValue.m_value = _
              rw [hcore, hk]
              show (s.shard.m_map.lookup key).map HashMapValue.m_value = _
              rw [he, Option.map_some, hv]
          · exact Or.inl (hold hv)
      exact ⟨hi.become ⟨⟨fuel, σ', hrest, hserved⟩, hcopies.2.1, hcopies.2.2⟩ hcopies.1, rfl⟩

theorem Inv.construct_ratio (hi : Inv s) (hidle : s.stage = .idle) {FC_size : ℕ}
    {o : Option (Flight UsedKey (Option α) × Option (Option α))}
    (h : step κ s (.construct_ratio FC_size) = .ok (o, s')) :
    Inv s' ∧ o = none := by
  obtain ⟨σ', hratio, h⟩ := bind_eq_ok.mp h
  cases h
  have hserved : Served s.shard := by
    have := hi.steady
    rwa [hidle] at this
  obtain ⟨τ, hr, hs⟩ := hserved
  have hcall : LRU_FHCache.call s.shard (true, .construct_ratio FC_size) = .ok (.done, σ') := by
    simp only [LRU_FHCache.call, hratio, ok_bind, pure_eq_ok]
  obtain ⟨τ', hτ, hr'⟩ := hr.call_ok (κ := .LRU_FH) (c := (true, .construct_ratio FC_size))
    trivial hcall
  obtain ⟨τ₁, heq, hτ⟩ := Option.map_eq_some_iff.mp hτ
  cases hτ
  obtain ⟨hs', hfr'⟩ := hs.construct_ratio heq
  have hserved' : Served σ' := ⟨_, hr', hs'⟩
  refine ⟨hi.become (by rw [hidle]; exact hserved') fun k x hx => Or.inr ?_, rfl⟩
  exact hserved'.sound.index (hr'.isFrozen.trans hfr') k x hx

theorem Inv.deconstruct (hi : Inv s) (hidle : s.stage = .idle)
    {o : Option (Flight UsedKey (Option α) × Option (Option α))}
    (h : step κ s .deconstruct = .ok (o, s')) :
    Inv s' ∧ o = none := by
  obtain ⟨⟨b, σ₁⟩, hthaw, h⟩ := bind_eq_ok.mp h
  cases h
  have hserved : Served s.shard := by
    have := hi.steady
    rwa [hidle] at this
  obtain ⟨τ, hr, hs⟩ := hserved
  obtain ⟨hs', hfr'⟩ := hs.deconstruct
  obtain ⟨σ', hdec, hr'⟩ := hr.deconstruct
  rw [deconstruct_eq, hthaw] at hdec
  have hfast := thawLocked_fasthash hthaw
  refine ⟨hi.become ?_ (Front.copies_of_index ?_), rfl⟩
  · cases b with
    | true =>
      cases hdec
      exact ⟨⟨_, hr', hs'⟩, hr'.isFrozen.trans hfr'⟩
    | false =>
      cases hdec
      exact ⟨_, hr', hs'⟩
  · unfold Shard.front
    rw [hfast]

/-- Every step keeps the invariant, and the answer of a call that returns is justified. -/
theorem Inv.step {e : LookupStep α} {o : Option (Flight UsedKey (Option α) × Option (Option α))}
    (hi : Inv s) (hallowed : Allowed κ s e) (h : step κ s e = .ok (o, s')) :
    Inv s' ∧ ∀ f a, o = some (f, a) → f.Justified a := by
  cases e with
  | find i key =>
    cases h
    refine ⟨⟨hi.steady, fun x hx => ?_⟩, fun f a h => by cases h⟩
    rcases List.mem_cons.mp hx with rfl | hx
    · exact Flight.fits_start _ _
    · exact hi.fits x hx
  | go i lock =>
    simp only [Lookups.step] at h
    cases hf : s.calls.get i with
    | none =>
      rw [hf] at h
      cases h
    | some f =>
      rw [hf] at h
      obtain ⟨r, hr, h⟩ := bind_eq_ok.mp h
      obtain ⟨hread, hfront, hsteady⟩ := hi.steady.access (hallowed f hf) hr
      have hfits := (hi.fits _ (Pool.mem_of_get hf)).read hi.steady.sound
      have hcopies : s.shard.front.Copies r.2.front := Front.copies_of_index (by rw [hfront])
      cases hr1 : r.1 with
      | inl a =>
        rw [hr1] at h hread
        cases h
        refine ⟨Inv.become (s := { s with calls := s.calls.remove i }) ⟨hi.steady, fun x hx => ?_⟩
          hsteady hcopies, ?_⟩
        · exact hi.fits x (List.mem_of_mem_filter hx)
        · intro f' a' heq
          cases heq
          exact hfits.1 a hread.symm
      | inr p =>
        rw [hr1] at h hread
        cases h
        refine ⟨Inv.become (s := { s with calls := s.calls.set i { f with probe := p } })
          ⟨hi.steady, fun x hx => ?_⟩ hsteady
          hcopies, fun f a h => by cases h⟩
        obtain ⟨y, hy, rfl⟩ := List.mem_map.mp hx
        dsimp only
        split
        · exact hfits.2 p hread.symm
        · exact hi.fits y hy
  | insert key value =>
    obtain ⟨r, hr, h⟩ := bind_eq_ok.mp h
    cases h
    obtain ⟨hsteady, hfast⟩ := hi.steady.insert hallowed hr
    refine ⟨hi.become hsteady (Front.copies_of_index ?_), fun f a h => by cases h⟩
    unfold Shard.front
    rw [hfast]
  | construct_tier =>
    obtain ⟨hi', rfl⟩ := hi.construct_tier hallowed.1 hallowed.2.1 hallowed.2.2 h
    exact ⟨hi', fun f a h => by cases h⟩
  | fill =>
    obtain ⟨n, hstage⟩ := hallowed
    obtain ⟨hi', rfl⟩ := hi.fill hstage h
    exact ⟨hi', fun f a h => by cases h⟩
  | construct_ratio FC_size =>
    obtain ⟨hi', rfl⟩ := hi.construct_ratio hallowed.1 h
    exact ⟨hi', fun f a h => by cases h⟩
  | deconstruct =>
    obtain ⟨hi', rfl⟩ := hi.deconstruct hallowed h
    exact ⟨hi', fun f a h => by cases h⟩
  | clear =>
    cases h
    have hthaw : Thawing s.shard := by
      have := hi.steady
      rwa [show s.stage = .thawing from hallowed] at this
    refine ⟨hi.become hthaw.served fun k x hx => ?_, fun f a h => by cases h⟩
    simp [Shard.front] at hx

-- A lookup finds the shard frozen; the shard is thawed and frozen again, and the lookup comes to
-- the fast hash
-- before it is filled and to `tier_ready` after that. Its key is in the map all the time, and it
-- answers that it
-- is not.
example : (exec (checked (Allowed .LRU_FH) (step .LRU_FH)) (init 8)
    [.insert ⟨3, by decide⟩ 7, .construct_tier, .fill, .fill, .find 0 ⟨3, by decide⟩, .go 0 true,
      .deconstruct, .clear, .construct_tier, .go 0 true, .fill, .fill, .go 0 true]).toOption.map
    (fun r => r.1.getLast?.join.map fun x => (x.2, x.1.seen.dedup, x.1.risen)) =
      some (some (none, [some (some 7)], true)) := by
  decide +kernel

-- A lookup finds the shard thawed, and promotes its node after a part of the shard was frozen. The
-- node leaves the
-- frozen list, inserts evict it, and a later lookup is answered by the fast hash, though its key
-- was evicted before
-- the lookup began.
example : (exec (step .LRU_FH) (init 20)
    ([.insert ⟨3, by decide⟩ 7, .insert ⟨4, by decide⟩ 8, .find 0 ⟨4, by decide⟩, .go 0 true,
      .construct_ratio 20, .go 0 true] ++ (List.range 20).map (fun i =>
      .insert ⟨5 + i % 100, by unfold ValidKey; omega⟩ 9) ++
      [.find 1 ⟨4, by decide⟩, .go 1 true, .go 1 true])).toOption.map
    (fun r => r.1.getLast?.join.map fun x => (x.2, x.1.seen.dedup)) =
    some (some (some (some 8), [none])) := by
  decide +kernel

end Lookups
end FrozenHot
