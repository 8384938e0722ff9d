import FrozenHot.Monitor.Effects
import FrozenHot.Freeze.Serving
import FrozenHot.Cache.Scalable

/-! The whole cache at work: the controller, the shards of `LRU_FHCache` that it freezes and thaws,
    and the clients.

    A step of the controller leaves the calls that it makes in a queue, and each of them is a step
    of its own, `get_curve` two of them, so that requests of clients come in between any two calls.
    The controller goes on when the queue is empty. Each shard serves one call at a time. -/

namespace FrozenHot
open Schemes

variable {S D α : Type}

/-- The controller, the shards, and the calls that the controller is about to make. -/
structure System (S D α : Type) where
  monitor : FastHashMonitor S D
  m_shards : List (Shard α)
  queued : List (ℕ × ShardCall S)

/-- What happens: `monitor_stop` or a step of the controller, its next call on a shard, or a request
    of a client. -/
inductive Action (S D α : Type) where
  | signal (s : Signal S D)
  | serve
  | get (lock : Bool) (key : ℕ) (value : α)
  | delete_key (key : ℕ)

namespace System

/-- The constructor of `ConcurrentScalableCache`. -/
def init [Zero S] [Zero D] (c : MonitorConfig) (maxSize : ℕ) : System S D α where
  monitor := FastHashMonitor.init
  m_shards := (List.range c.m_numShards).map fun i =>
    Shard.init (ConcurrentScalableCache.capacity maxSize c.m_numShards i)
  queued := []

/-- A call of the controller on a shard, and whether it has returned after this step. The size that
    `construct_ratio` makes of `FC_ratio * m_maxSize` is `part FC_ratio m_maxSize`. -/
def serveCall (part : S → ℕ → ℕ) (σ : Shard α) : ShardCall S → Except Fault (Bool × Shard α)
  | .get_curve =>
    if σ.curve_flag then do let σ ← σ.endCurve; return (true, σ)
    else do let σ ← σ.beginCurve; return (false, σ)
  | .construct_tier => do let r ← LRU_FHCache.call σ (true, .construct_tier); return (true, r.2)
  | .construct_ratio FC_ratio => do
    let r ← LRU_FHCache.call σ (true, .construct_ratio (part FC_ratio σ.m_maxSize))
    return (true, r.2)
  | .deconstruct => do let r ← LRU_FHCache.call σ (true, .deconstruct); return (true, r.2)

/-- Shard `i` does something; `at` throws if there is no such shard. -/
def onShard {A : Type} (s : System S D α) (i : ℕ) (f : Shard α → Except Fault (A × Shard α)) :
    Except Fault (A × System S D α) := do
  match s.m_shards[i]? with
  | none => throw .deref
  | some σ =>
    let r ← f σ
    return (r.1, { s with m_shards := s.m_shards.set i r.2 })

/-- The next call of the controller. -/
def serve (part : S → ℕ → ℕ) (s : System S D α) : Except Fault (System S D α) := do
  match s.queued with
  | [] => throw .diverge
  | (i, call) :: rest =>
    let r ← s.onShard i (serveCall part · call)
    return if r.1 then { r.2 with queued := rest } else r.2

section
variable [Zero S] [One S] [Sub S] [Neg S] [OfScientific S] [LinearOrder S]
variable [Zero D] [One D] [Add D] [Sub D] [Mul D] [Div D] [NatCast D] [OfScientific D]
variable [LT D] [LE D] [DecidableLT D] [DecidableLE D]

/-- A step of the controller: the calls that it adds are to be made next. -/
def signal (c : MonitorConfig) (s : System S D α) (i : Signal S D) : Except Fault (System S D α) :=
  do
  let r ← FastHashMonitor.step c s.monitor i
  let calls := r.2.calls.drop s.monitor.calls.length
  return { s with monitor := r.2, queued := s.queued ++ calls.map fun e => (e.shard, e.call) }

def step (part : S → ℕ → ℕ) (hash : ℕ → UInt64) (c : MonitorConfig) (s : System S D α) :
    Action S D α → Except Fault (FHResp α × System S D α)
  | .signal i => do let s ← s.signal c i; return (.done, s)
  | .serve => do let s ← s.serve part; return (.done, s)
  | .get lock key value =>
    s.onShard (ConcurrentScalableCache.shardOf hash c.m_numShards key)
      (LRU_FHCache.call · (lock, .get key value))
  | .delete_key key =>
    s.onShard (ConcurrentScalableCache.shardOf hash c.m_numShards key)
      (LRU_FHCache.call · (true, .delete_key key))

end

/-! ### What the environment keeps to -/

/-- The shard of a key. -/
def shard (hash : ℕ → UInt64) (c : MonitorConfig) (s : System S D α) (key : ℕ) : Option (Shard α) :=
  s.m_shards[ConcurrentScalableCache.shardOf hash c.m_numShards key]?

/-- A shard holds a key when it is frozen as a whole. -/
def Fills (m_shards : List (Shard α)) : ℕ × ShardCall S → Prop
  | (i, .construct_tier) => ∀ σ ∈ m_shards[i]?, σ.m_map ≠ ∅
  | _ => True

instance (m_shards : List (Shard α)) : DecidablePred (Fills (S := S) m_shards)
  | (i, .construct_tier) => inferInstanceAs (Decidable (∀ σ ∈ m_shards[i]?, σ.m_map ≠ ∅))
  | (_, .get_curve) | (_, .construct_ratio _) | (_, .deconstruct) => .isTrue trivial

/-- The controller goes on once its calls have returned, and freezes a shard as a whole only if it
    holds a key; no key is deleted from a shard that is profiled, or that answers for the key from
    the fast hash. -/
def Orderly (hash : ℕ → UInt64) (c : MonitorConfig) (s : System S D α) : Action S D α → Prop
  | .signal .stop => True
  | .signal (.go _) => s.queued = []
  | .serve => ∃ e ∈ s.queued.head?, Fills s.m_shards e
  | .get _ key _ => ValidKey key
  | .delete_key key => ValidKey key ∧
      ∀ σ ∈ s.shard hash c key, σ.curve_flag = false ∧ (key ∈ σ.m_map → σ.frozenHit key = false)

instance (hash : ℕ → UInt64) (c : MonitorConfig) (s : System S D α) :
    DecidablePred (s.Orderly hash c)
  | .signal .stop => .isTrue trivial
  | .signal (.go _) => inferInstanceAs (Decidable (s.queued = []))
  | .serve => inferInstanceAs (Decidable (∃ e ∈ s.queued.head?, Fills s.m_shards e))
  | .get _ key _ => inferInstanceAs (Decidable (ValidKey key))
  | .delete_key key => inferInstanceAs (Decidable (_ ∧ ∀ σ ∈ s.shard hash c key, _))

/-- A read request does not evict the marker of a curve. -/
def SparesMarker (hash : ℕ → UInt64) (c : MonitorConfig) (s : System S D α) : Action S D α → Prop
  | .get lock key value =>
      ∀ σ ∈ s.shard hash c key, Shard.SparesMarker σ (.call (lock, .get key value))
  | _ => True

/-- What may happen next. -/
def Proper (hash : ℕ → UInt64) (c : MonitorConfig) (s : System S D α) (a : Action S D α) : Prop :=
  s.Orderly hash c a ∧ s.SparesMarker hash c a

/-- The next call freezes a part of a shard: its scan may run off the list. -/
def NextRatio (s : System S D α) : Prop :=
  ∃ i FC_ratio rest, s.queued = (i, .construct_ratio FC_ratio) :: rest

/-! ### The invariant -/

/-- The calls lead from the shards that are frozen to those that will be, and freeze or profile
    thawed shards only. -/
def Due (N : ℕ) : Finset ℕ → List (ℕ × ShardCall S) → Finset ℕ → Prop
  | T, [], T' => T = T'
  | T, (i, call) :: q, T' => i < N ∧ (call ≠ .deconstruct → i ∉ T) ∧ Due N (call.after i T) q T'

theorem due_of_leads [OfScientific S] [LinearOrder S] {N : ℕ} :
    ∀ {E : List (ShardEvent S)} {T T' : Finset ℕ}, Leads N T E T' → FastHashMonitor.Lawful E →
    Due N T (E.map fun e => (e.shard, e.call)) T'
  | [], _, _, h, _ => h
  | e :: E, T, T', h, hl => by
    refine ⟨h.1, fun hd => ?_, due_of_leads h.2.2 fun e' he' => hl e' (by simp [he'])⟩
    have he : e.Lawful := hl e (by simp)
    have hfrozen : e.frozen = false := by
      unfold ShardEvent.Lawful at he
      split at he
      · exact he.2.1
      · exact he
      · exact he.1
      · rename_i hcall
        exact absurd hcall hd
    rw [h.2.1] at hfrozen
    simpa using hfrozen

/-- Shard `i` rests, or it is profiled by the call that is under way. -/
def Ready (queued : List (ℕ × ShardCall S)) (i : ℕ) (σ : Shard α) : Prop :=
  σ.Resting ∨ σ.Measuring ∧ ∃ rest, queued = (i, .get_curve) :: rest

/-- The controller keeps its protocol, and the shards in `T` are frozen. -/
structure Inv [OfScientific S] [LinearOrder S] (c : MonitorConfig) (s : System S D α)
    (T : Finset ℕ) : Prop where
  monitor : FastHashMonitor.Inv c s.monitor
  count : s.m_shards.length = c.m_numShards
  due : Due c.m_numShards T s.queued s.monitor.frozen
  ready : ∀ i σ, s.m_shards[i]? = some σ → Ready s.queued i σ ∧ σ.isFrozen = decide (i ∈ T)

variable {part : S → ℕ → ℕ} {hash : ℕ → UInt64} {c : MonitorConfig} {s s' : System S D α}
    {T : Finset ℕ} {i : ℕ} {σ σ' : Shard α}

theorem mem_after_of_ne {call : ShardCall S} {j : ℕ} (hj : j ≠ i) : j ∈ call.after i T ↔ j ∈ T := by
  cases call <;> simp [ShardCall.after, hj]

/-- A step on one shard, from what the shard does. -/
theorem onShard_ok {A : Type} {f : Shard α → Except Fault (A × Shard α)} {a : A}
    (hσ : s.m_shards[i]? = some σ) (hf : f σ = .ok (a, σ')) :
    s.onShard i f = .ok (a, { s with m_shards := s.m_shards.set i σ' }) := by
  simp only [onShard, hσ, hf, ok_bind, pure_eq_ok]

section
variable [OfScientific S] [LinearOrder S]

theorem inv_init [Zero S] [Zero D] (c : MonitorConfig) (maxSize : ℕ) :
    Inv c (init c maxSize : System S D α) ∅ := by
  refine ⟨FastHashMonitor.inv_init c, by simp [init], rfl, fun i σ hσ => ?_⟩
  rw [init, List.getElem?_map, Option.map_eq_some_iff] at hσ
  obtain ⟨j, -, rfl⟩ := hσ
  exact ⟨Or.inl (Shard.resting_init _), rfl⟩

/-- Another state of shard `i`. -/
theorem Inv.set {call : List (ℕ × ShardCall S)} {T' : Finset ℕ} (hi : Inv c s T)
    (hlt : i < c.m_numShards) (hdue : Due c.m_numShards T' call s.monitor.frozen)
    (hself : Ready call i σ' ∧ σ'.isFrozen = decide (i ∈ T'))
    (hothers : ∀ j σ, j ≠ i → s.m_shards[j]? = some σ → Ready call j σ ∧
      σ.isFrozen = decide (j ∈ T')) :
    Inv c { s with m_shards := s.m_shards.set i σ', queued := call } T' := by
  refine ⟨hi.monitor, by rw [← hi.count]; simp, hdue, fun j σ hσ => ?_⟩
  dsimp only at hσ
  rw [List.getElem?_set] at hσ
  by_cases hji : i = j
  · subst hji
    rw [if_pos rfl, if_pos (by rw [hi.count]; exact hlt)] at hσ
    cases hσ
    exact hself
  · rw [if_neg hji] at hσ
    exact hothers j σ (Ne.symm hji) hσ

/-- A request that leaves the mode of the shard alone. -/
theorem Inv.request (hi : Inv c s T) (hlt : i < c.m_numShards) (hσ : s.m_shards[i]? = some σ)
    (hready : Ready s.queued i σ') (hfr : σ'.isFrozen = σ.isFrozen) :
    Inv c { s with m_shards := s.m_shards.set i σ' } T :=
  hi.set hlt hi.due ⟨hready, hfr.trans (hi.ready i σ hσ).2⟩ fun j σ _ hσ => hi.ready j σ hσ

theorem Inv.get (hi : Inv c s T) (hlt : i < c.m_numShards) (hσ : s.m_shards[i]? = some σ)
    {lock : Bool} {k : ℕ} {v : α} (hk : ValidKey k)
    (hspare : Shard.SparesMarker σ (.call (lock, .get k v))) :
    ∃ σ', LRU_FHCache.call σ (lock, .get k v) =
      .ok (.got (ListShard.served σ.m_map σ.tier_no_insert k), σ') ∧
      Inv c { s with m_shards := s.m_shards.set i σ' } T := by
  rcases (hi.ready i σ hσ).1 with hr | ⟨hm, hq⟩
  · obtain ⟨σ', hcall, hr', hfr⟩ := hr.get hk lock v
    exact ⟨σ', hcall, hi.request hlt hσ (Or.inl hr') hfr⟩
  · obtain ⟨σ', hcall, hm'⟩ := hm.get hk lock v hspare
    exact ⟨σ', hcall, hi.request hlt hσ (Or.inr ⟨hm', hq⟩) (by rw [hm'.isFrozen, hm.isFrozen])⟩

theorem Inv.delete_key (hi : Inv c s T) (hlt : i < c.m_numShards) (hσ : s.m_shards[i]? = some σ)
    {k : ℕ} (hk : ValidKey k) (hflag : σ.curve_flag = false)
    (hf : k ∈ σ.m_map → σ.frozenHit k = false) :
    ∃ σ', LRU_FHCache.call σ (true, .delete_key k) = .ok (.done, σ') ∧
      Inv c { s with m_shards := s.m_shards.set i σ' } T := by
  rcases (hi.ready i σ hσ).1 with hr | ⟨hm, -⟩
  · obtain ⟨σ', hcall, hr', hfr⟩ := hr.delete_key hk hf true
    exact ⟨σ', hcall, hi.request hlt hσ (Or.inl hr') hfr⟩
  · exact absurd (hm.curve_flag.symm.trans hflag) Bool.true_eq_false.mp

/-! ### The calls of the controller -/

/-- The shards that the next call is not about rest, and stay as they are. -/
theorem Inv.others {call : ShardCall S} {rest : List (ℕ × ShardCall S)} (hi : Inv c s T)
    (hq : s.queued = (i, call) :: rest) (queued : List (ℕ × ShardCall S)) :
    ∀ j σ, j ≠ i → s.m_shards[j]? = some σ →
      Ready queued j σ ∧ σ.isFrozen = decide (j ∈ call.after i T) := by
  intro j σ hj hσ
  obtain ⟨hready, hfr⟩ := hi.ready j σ hσ
  refine ⟨Or.inl (hready.resolve_right fun ⟨_, rest', h⟩ =>
    ?_), by rw [hfr, decide_eq_decide, mem_after_of_ne hj]⟩
  rw [hq] at h
  cases h
  exact hj rfl

/-- The call returns: the shard rests, frozen or not as the call left it. -/
theorem Inv.returned {call : ShardCall S} {rest : List (ℕ × ShardCall S)} (hi : Inv c s T)
    (hq : s.queued = (i, call) :: rest) (hr : σ'.Resting)
    (hfr : σ'.isFrozen = decide (i ∈ call.after i T)) :
    Inv c { s with m_shards := s.m_shards.set i σ', queued := rest } (call.after i T) := by
  have hdue := hi.due
  rw [hq] at hdue
  exact hi.set hdue.1 hdue.2.2 ⟨Or.inl hr, hfr⟩ (hi.others hq rest)

/-- A shard that is to be frozen or thawed is not being profiled. -/
theorem Inv.resting {call : ShardCall S} {rest : List (ℕ × ShardCall S)} (hi : Inv c s T)
    (hq : s.queued = (i, call) :: rest) (hσ : s.m_shards[i]? = some σ) (hcall : call ≠ .get_curve) :
    σ.Resting := by
  refine (hi.ready i σ hσ).1.resolve_right ?_
  rintro ⟨-, rest', h⟩
  rw [hq] at h
  cases h
  exact hcall rfl

/-- A shard that is to be frozen or profiled is thawed. -/
theorem Inv.thawed {call : ShardCall S} {rest : List (ℕ × ShardCall S)} (hi : Inv c s T)
    (hq : s.queued = (i, call) :: rest) (hσ : s.m_shards[i]? = some σ)
    (hcall : call ≠ .deconstruct) : σ.isFrozen = false := by
  have hdue := hi.due
  rw [hq] at hdue
  rw [(hi.ready i σ hσ).2]
  exact decide_eq_false (hdue.2.1 hcall)

/-- The next call: it keeps the invariant, and it returns unless it freezes a part. -/
theorem Inv.serveCall (part : S → ℕ → ℕ) {call : ShardCall S} {rest : List (ℕ × ShardCall S)}
    (hi : Inv c s T) (hq : s.queued = (i, call) :: rest) (hσ : s.m_shards[i]? = some σ)
    (htier : call = .construct_tier → σ.m_map ≠ ∅) :
    (∃ b σ', System.serveCall part σ call = .ok (b, σ') ∧
      ∃ T', Inv c { s with m_shards := s.m_shards.set i σ', queued := if b then rest else s.queued }
      T') ∨
    (∃ FC_ratio e, call = .construct_ratio FC_ratio ∧ System.serveCall part σ call = .error e) := by
  have hdue := hi.due
  rw [hq] at hdue
  cases call with
  | get_curve =>
    have hfr := hi.thawed hq hσ (by simp)
    rcases (hi.ready i σ hσ).1 with hr | ⟨hm, -⟩
    · -- the curve begins
      obtain ⟨σ', hb, hm⟩ := hr.begin hfr
      refine Or.inl ⟨false, σ', ?_, T, ?_⟩
      · rw [System.serveCall, hr.idle.curve_flag, hb]
        rfl
      · refine hi.set hdue.1 hi.due ⟨Or.inr ⟨hm, rest, hq⟩, ?_⟩ fun j σ hj hσ =>
          hi.others hq _ j σ hj hσ
        rw [hm.isFrozen]
        exact (decide_eq_false (hdue.2.1 (by simp))).symm
    · -- the curve ends
      obtain ⟨σ', he, hr, hfr'⟩ := hm.finish
      refine Or.inl ⟨true, σ', ?_, _, hi.returned hq hr ?_⟩
      · rw [System.serveCall, hm.curve_flag, if_pos rfl, he]
        rfl
      · rw [hfr']
        exact (decide_eq_false (hdue.2.1 (by simp))).symm
  | construct_tier =>
    obtain ⟨σ', hcall, hr, hfr⟩ :=
      (hi.resting hq hσ (by simp)).construct_tier (hi.thawed hq hσ (by simp)) (htier rfl) true
    refine Or.inl ⟨true, σ', ?_, _, hi.returned hq hr ?_⟩
    · rw [System.serveCall, hcall]
      rfl
    · rw [hfr]
      simp [ShardCall.after]
  | construct_ratio FC_ratio =>
    cases hcall : LRU_FHCache.call σ (true, .construct_ratio (part FC_ratio σ.m_maxSize)) with
    | error e => exact Or.inr ⟨FC_ratio, e, rfl, by rw [System.serveCall, hcall]; rfl⟩
    | ok r =>
      obtain ⟨hr, hfr⟩ := (hi.resting hq hσ (by simp)).construct_ratio hcall
      refine Or.inl ⟨true, r.2, ?_, _, hi.returned hq hr ?_⟩
      · rw [System.serveCall, hcall]
        rfl
      · rw [hfr]
        simp [ShardCall.after]
  | deconstruct =>
    obtain ⟨σ', hcall, hr, hfr⟩ := (hi.resting hq hσ (by simp)).deconstruct true
    refine Or.inl ⟨true, σ', ?_, _, hi.returned hq hr ?_⟩
    · rw [System.serveCall, hcall]
      rfl
    · rw [hfr]
      simp [ShardCall.after]

theorem Inv.exists_shard (hi : Inv c s T) (hlt : i < c.m_numShards) :
    ∃ σ, s.m_shards[i]? = some σ :=
  ⟨_, List.getElem?_eq_getElem (by rw [hi.count]; exact hlt)⟩

theorem Inv.serve (hi : Inv c s T) (hfills : ∃ e ∈ s.queued.head?, Fills s.m_shards e)
    (hratio : ¬ s.NextRatio ∨ ∃ s', s.serve part = .ok s') :
    ∃ s' T', s.serve part = .ok s' ∧ Inv c s' T' := by
  obtain ⟨⟨i, call⟩, hhead, htier⟩ := hfills
  obtain ⟨rest, hq⟩ := List.head?_eq_some_iff.mp hhead
  have hdue := hi.due
  rw [hq] at hdue
  obtain ⟨σ, hσ⟩ := hi.exists_shard hdue.1
  have hmap : call = .construct_tier → σ.m_map ≠ ∅ := by
    rintro rfl
    exact htier σ hσ
  rcases hi.serveCall part hq hσ hmap
    with ⟨b, σ', hcall, T', hi'⟩ | ⟨FC_ratio, e, rfl, herr⟩
  · refine ⟨_, T', ?_, hi'⟩
    have hon := onShard_ok (f := (System.serveCall part · call)) hσ hcall
    simp only [System.serve, hq, hon, ok_bind, pure_eq_ok]
    cases b <;> rfl
  · rcases hratio with hno | ⟨s', hs'⟩
    · exact absurd ⟨i, FC_ratio, rest, hq⟩ hno
    · simp [System.serve, hq, onShard, hσ, herr] at hs'

end

/-! ### Steps and runs -/

section
variable [Zero S] [One S] [Sub S] [Neg S] [OfScientific S] [LinearOrder S]
variable [Zero D] [One D] [Add D] [Sub D] [Mul D] [Div D] [NatCast D] [OfScientific D]
variable [LT D] [LE D] [DecidableLT D] [DecidableLE D]

theorem Inv.stop (hi : Inv c s T) : ∃ s', s.signal c .stop = .ok s' ∧ Inv c s' T := by
  refine ⟨_, rfl, hi.monitor.stop, hi.count, ?_, fun i σ hσ => ?_⟩
  · simpa using hi.due
  · simpa using hi.ready i σ hσ

theorem Inv.go (hi : Inv c s T) (hN : 0 < c.m_numShards) (hq : s.queued = []) (r : Reading S D) :
    ∃ s', s.signal c (.go r) = .ok s' ∧ Inv c s' T := by
  obtain ⟨m, hgo, hm⟩ := hi.monitor.go r
  obtain ⟨E, hE, hl⟩ := FastHashMonitor.Effect.go hi.monitor hN hgo
  have hT : T = s.monitor.frozen := by
    have := hi.due
    rwa [hq] at this
  have hdrop : m.calls.drop s.monitor.calls.length = E := by rw [hE, List.drop_left]
  refine ⟨{ s with monitor := m, queued := E.map fun e => (e.shard, e.call) }, ?_, hm, hi.count, ?_,
    fun i σ hσ => ?_⟩
  · simp only [System.signal, FastHashMonitor.step, hgo, ok_bind, pure_eq_ok, hdrop, hq,
      List.nil_append]
  · rw [hT]
    exact due_of_leads hl fun e he => hm.lawful e (by rw [hE]; simp [he])
  · obtain ⟨hready, hfr⟩ := hi.ready i σ hσ
    have hidle : ¬ (σ.Measuring ∧ ∃ rest, s.queued = (i, .get_curve) :: rest) := by
      rintro ⟨-, rest, h⟩
      rw [hq] at h
      cases h
    exact ⟨Or.inl (hready.resolve_right hidle), hfr⟩

/-- Every proper step but the freeze of a part returns, and keeps the invariant. -/
theorem Inv.step (hi : Inv c s T) (hN : 0 < c.m_numShards) {a : Action S D α}
    (hproper : Proper hash c s a)
    (hratio : a = .serve → ¬ s.NextRatio ∨ ∃ s', s.serve part = .ok s') :
    ∃ o s' T', step part hash c s a = .ok (o, s') ∧ Inv c s' T' := by
  have hlt : ∀ k, ConcurrentScalableCache.shardOf hash c.m_numShards k < c.m_numShards :=
    fun k => Nat.mod_lt _ hN
  cases a with
  | signal i =>
    cases i with
    | stop =>
      obtain ⟨s', hs, hi'⟩ := hi.stop
      exact ⟨.done, s', T, by rw [System.step, hs]; rfl, hi'⟩
    | go r =>
      obtain ⟨s', hs, hi'⟩ := hi.go hN hproper.1 r
      exact ⟨.done, s', T, by rw [System.step, hs]; rfl, hi'⟩
  | serve =>
    obtain ⟨s', T', hs, hi'⟩ := hi.serve hproper.1 (hratio rfl)
    exact ⟨.done, s', T', by rw [System.step, hs]; rfl, hi'⟩
  | get lock k v =>
    obtain ⟨σ, hσ⟩ := hi.exists_shard (hlt k)
    obtain ⟨σ', hcall, hi'⟩ := hi.get (hlt k) hσ hproper.1 (hproper.2 σ hσ)
    exact ⟨_, _, T, onShard_ok hσ hcall, hi'⟩
  | delete_key k =>
    obtain ⟨σ, hσ⟩ := hi.exists_shard (hlt k)
    obtain ⟨hk, hmode⟩ := hproper.1
    obtain ⟨hflag, hf⟩ := hmode σ hσ
    obtain ⟨σ', hcall, hi'⟩ := hi.delete_key (hlt k) hσ hk hflag hf
    exact ⟨_, _, T, onShard_ok hσ hcall, hi'⟩

theorem inv_of_run (hN : 0 < c.m_numShards) {maxSize : ℕ} {H : List (Action S D α × FHResp α)}
    (hrun : Run (step part hash c) (Proper hash c) (init c maxSize) H s) : ∃ T, Inv c s T := by
  refine hrun.invariant (fun s => ∃ T, Inv c s T) ⟨∅, inv_init c maxSize⟩ fun s₁ a o s₂ ⟨T, hi⟩
    hproper _ hs => ?_
  obtain ⟨o', s', T', hs', hi'⟩ := hi.step hN hproper fun ha => Or.inr (by
    subst ha
    obtain ⟨s', hs', -⟩ := bind_eq_ok.mp hs
    exact ⟨s', hs'⟩)
  obtain ⟨-, rfl⟩ := Prod.mk.inj (Except.ok.inj (hs.symm.trans hs'))
  exact ⟨T', hi'⟩

/-- A shard with nothing left of a freeze. -/
structure Thawed (σ : Shard α) : Prop where
  flags : σ.tier_ready = false ∧ σ.fast_hash_ready = false ∧ σ.tier_no_insert = false ∧
    σ.curve_flag = false
  fasthash : σ.m_fasthash = ∅
  lists : ∃ L, Shard.Lists σ.heap none [] L

theorem thawed_of_resting (hr : σ.Resting) (hfr : σ.isFrozen = false) : Thawed σ := by
  have hflag := hr.idle.curve_flag
  obtain ⟨τ, hrep, hs⟩ := hr.serving
  obtain ⟨htier, hready⟩ := Bool.or_eq_false_iff.mp hfr
  have hcore := hrep.core
  obtain ⟨hF, hfast⟩ := hs.wired.thawed (by rw [← hcore]; exact htier)
    (by rw [← hcore]; exact hready)
  refine ⟨⟨htier, hready, ?_, hflag⟩, by rw [hcore]; exact hfast, τ.main, ?_⟩
  · rw [hcore, hs.wired.tier, ← hcore]
    exact htier
  · have := hrep.holds.lists
    rwa [hF] at this

/-- In every proper run of the controller with its shards and clients, with the flag raised at any
    moment and requests between any two calls of the controller: every step that may come next
    returns, unless it freezes a part of a shard; a read request is answered with what the map of
    its shard holds, whatever is frozen or profiled; when the calls of a step of the controller have
    returned, the shards that it takes for frozen are those whose flags say so; and once the
    controller has returned, nothing of a freeze is left. -/
theorem system_serves {maxSize : ℕ} {H : List (Action S D α × FHResp α)} (hN : 0 < c.m_numShards)
    (hrun : Run (step part hash c) (Proper hash c) (init c maxSize) H s) :
    (∀ a, Proper hash c s a → (a = .serve → ¬ s.NextRatio) → ∃ o s',
      step part hash c s a = .ok (o, s')) ∧
    (∀ lock k v, Proper hash c s (.get lock k v) → ∃ σ s', s.shard hash c k = some σ ∧
      step part hash c s (.get lock k v) = .ok (.got (ListShard.served σ.m_map σ.tier_no_insert k),
        s')) ∧
    (s.queued = [] → ∀ i σ, s.m_shards[i]? = some σ → (σ.isFrozen = true ↔ i ∈ s.monitor.frozen)) ∧
    (s.queued = [] → s.monitor.pc = .done → ∀ σ ∈ s.m_shards, Thawed σ) := by
  obtain ⟨T, hi⟩ := inv_of_run hN hrun
  have hstatus : s.queued = [] → ∀ i σ, s.m_shards[i]? = some σ → σ.Resting ∧
      (σ.isFrozen = true ↔ i ∈ s.monitor.frozen) := by
    intro hq i σ hσ
    have hdue := hi.due
    obtain ⟨hready, hfr⟩ := hi.ready i σ hσ
    rw [hq] at hdue hready
    obtain rfl : T = s.monitor.frozen := hdue
    refine ⟨hready.resolve_right (by simp), ?_⟩
    rw [hfr, decide_eq_true_eq]
  refine ⟨fun a ha hratio => ?_, fun lock k v ha => ?_, fun hq i σ hσ => (hstatus hq i σ hσ).2,
    fun hq hpc σ hσ => ?_⟩
  · obtain ⟨o, s', -, hs, -⟩ := hi.step hN ha fun h => Or.inl (hratio h)
    exact ⟨o, s', hs⟩
  · have hlt : ConcurrentScalableCache.shardOf hash c.m_numShards k < c.m_numShards :=
      Nat.mod_lt _ hN
    obtain ⟨σ, hσ⟩ := hi.exists_shard hlt
    obtain ⟨σ', hcall, -⟩ := hi.get hlt hσ ha.1 (ha.2 σ hσ)
    exact ⟨σ, _, hσ, onShard_ok hσ hcall⟩
  · obtain ⟨i, hσ⟩ := List.mem_iff_getElem?.mp hσ
    obtain ⟨hr, hfr⟩ := hstatus hq i σ hσ
    have hphase := hi.monitor.phase
    simp only [FastHashMonitor.Phase, hpc] at hphase
    refine thawed_of_resting hr ?_
    rw [hphase] at hfr
    simpa using hfr

end

/-- A request to a shard that is profiled is for a key that it holds. -/
def HitsProfiled (hash : ℕ → UInt64) (c : MonitorConfig) (s : System S D α) : Action S D α → Prop
  | .get _ key _ => ∀ σ ∈ s.shard hash c key, σ.curve_flag = true → key ∈ σ.m_map
  | _ => True

instance (hash : ℕ → UInt64) (c : MonitorConfig) (s : System S D α) :
    DecidablePred (s.HitsProfiled hash c)
  | .get _ key _ => inferInstanceAs (Decidable (∀ σ ∈ s.shard hash c key, _ → _))
  | .signal _ | .serve | .delete_key _ => .isTrue trivial

theorem HitsProfiled.sparesMarker {a : Action S D α} (h : s.HitsProfiled hash c a) :
    s.SparesMarker hash c a := by
  cases a with
  | get lock key value => exact fun σ hσ hflag hk => absurd (h σ hσ hflag) hk
  | signal i | serve | delete_key k => trivial

/-- Two shards are filled, profiled, frozen and read; then the controller is stopped and thaws
    them. -/
def freezeAndStop : List (Action ℚ ℚ ℕ) :=
  let go : Action ℚ ℚ ℕ := .signal (.go FastHashMonitor.improving)
  [.get true 4 7, .get true 3 8, go, go, go, go, go, .serve, .get true 4 9, .serve, go, .serve,
    .serve, .serve, .serve, go, go, go, go, .serve, .serve, .get true 3 9, .get true 5 6,
    .signal .stop, go, go, go, go, .serve, .serve, go]

def twoShards : MonitorConfig := ⟨2, 1, by decide⟩

theorem system_serves_two : ∃ (os : List (FHResp ℕ)) (s : System ℚ ℚ ℕ),
    exec (step (fun FC_ratio n => (FC_ratio * n : ℚ).floor.toNat)
      (fun k => UInt64.ofNat k <<< 48) twoShards)
      (init twoShards 8) freezeAndStop = .ok (os, s) ∧ s.monitor.calls.length = 9 ∧
      s.m_shards.length = 2 ∧
    ∀ σ ∈ s.m_shards, Thawed σ := by
  let part : ℚ → ℕ → ℕ := fun FC_ratio n => (FC_ratio * n : ℚ).floor.toNat
  let hash : ℕ → UInt64 := fun k => UInt64.ofNat k <<< 48
  let P : System ℚ ℚ ℕ → Action ℚ ℚ ℕ → Prop := fun s a => s.Orderly hash twoShards a ∧
    s.HitsProfiled hash twoShards a
  have heval :
      (exec (checked P (step part hash twoShards)) (init twoShards 8) freezeAndStop).toOption.map
          (fun r =>
      (r.2.monitor.pc, r.2.monitor.calls.length, r.2.m_shards.length, r.2.queued.isEmpty)) =
        some (.done, 9, 2, true) := by
    decide +kernel
  cases hex : exec (checked P (step part hash twoShards)) (init twoShards 8) freezeAndStop with
  | error e =>
    rw [hex] at heval
    cases heval
  | ok r =>
    rw [hex] at heval
    simp only [Except.toOption, Option.map_some, Option.some.injEq, Prod.mk.injEq] at heval
    obtain ⟨hpc, hcalls, hcount, hq⟩ := heval
    have hserves := system_serves (by decide) ((Run.of_checked hex).mono fun _ _ h =>
      ⟨h.1, h.2.sparesMarker⟩)
    exact ⟨r.1, r.2, exec_of_checked hex, hcalls, hcount,
      hserves.2.2.2 (List.isEmpty_iff.mp hq) hpc⟩

end System
end FrozenHot
