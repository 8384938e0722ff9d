import FrozenHot.Cache.Redis

/-! The idle times of `RedisLRUCache` against the times of the last touches.

    An object keeps the last 32 bits of the clock reading of its last touch, and the idle time is
    taken against all of the clock. The history of the calls tells when a key was last touched. -/

namespace FrozenHot.RedisLRUCache
open Schemes

variable {V : Type} {σ σ' : RedisLRUCache V} {k k₁ k₂ now t t₁ t₂ : ℕ} {o : LruValue V}
variable {H : List (RedisCall V × RedisReply V)}

/-- The clock reading of a call that touches the key: a hit, or the construction of its object. -/
def touch (k : ℕ) : RedisCall V × RedisReply V → Option ℕ
  | (.find key now, .found (some _)) => if key = k then some now else none
  | (.insert key _ now _, .inserted true) => if key = k then some now else none
  | _ => none

/-- When the key was last touched. -/
def lastTouch (k : ℕ) (H : List (RedisCall V × RedisReply V)) : Option ℕ :=
  (H.filterMap (touch k)).getLast?

theorem lastTouch_snoc (k : ℕ) (H : List (RedisCall V × RedisReply V))
    (x : RedisCall V × RedisReply V) :
    lastTouch k (H ++ [x]) = (touch k x).or (lastTouch k H) := by
  cases hx : touch k x <;> simp [lastTouch, hx]

/-- Every object has the last bits of the time its key was last touched. -/
def Stamped (H : List (RedisCall V × RedisReply V)) (σ : RedisLRUCache V) : Prop :=
  ∀ k o, σ.m_map.lookup k = some o → ∃ t, lastTouch k H = some t ∧ o.lru = t % 2 ^ 32

/-! ### An eviction leaves the other objects alone -/

theorem evictFromPool_lookup {b : Bool} (n : ℕ) (he : σ.evictFromPool n = .ok (b, σ'))
    (hl : σ'.m_map.lookup k = some o) : σ.m_map.lookup k = some o := by
  induction n generalizing σ with
  | zero =>
    cases he
    exact hl
  | succ n ih =>
    simp only [evictFromPool] at he
    split_ifs at he with h0 hk
    · exact ih he
    · cases hr : σ.rs.remove (σ.EvictionPool.get n).key with
      | error e => simp [hr] at he
      | ok r =>
        simp only [hr, ok_bind, pure_eq_ok, Except.ok.injEq, Prod.mk.injEq] at he
        obtain ⟨-, rfl⟩ := he
        by_cases hkn : k = (σ.EvictionPool.get n).key
        · subst hkn
          simp [Finmap.lookup_erase] at hl
        · rwa [Finmap.lookup_erase_ne hkn] at hl
    · exact ih (σ := { σ with EvictionPool := σ.EvictionPool.put n ⟨0, 0⟩ }) he

theorem performEvictions_lookup (passes : List Pass) (he : σ.performEvictions passes = .ok σ')
    (hl : σ'.m_map.lookup k = some o) : σ.m_map.lookup k = some o := by
  induction passes generalizing σ with
  | nil => cases he
  | cons p passes ih =>
    simp only [performEvictions] at he
    cases hp : σ.evictionPoolPopulate p with
    | error e => simp [hp] at he
    | ok σ₁ =>
      cases hv : σ₁.evictFromPool 16 with
      | error e => simp [hp, hv] at he
      | ok r =>
        simp only [hp, hv, ok_bind] at he
        have hmap : σ₁.m_map = σ.m_map := by
          obtain ⟨l, rfl⟩ := evictionPoolPopulate_eq hp
          rfl
        rw [← hmap]
        split_ifs at he with hr
        · cases he
          exact evictFromPool_lookup 16 hv hl
        · exact evictFromPool_lookup 16 hv (ih he)

/-! ### The calls stamp what they touch -/

theorem Stamped.of_touch {x : RedisCall V × RedisReply V} (hs : Stamped H σ)
    (hx : ∀ k o, σ'.m_map.lookup k = some o → (∃ t, touch k x = some t ∧ o.lru = t % 2 ^ 32) ∨
      touch k x = none ∧ σ.m_map.lookup k = some o) :
    Stamped (H ++ [x]) σ' := by
  intro k o hl
  rw [lastTouch_snoc]
  rcases hx k o hl with ⟨t, ht, ho⟩ | ⟨ht, hl'⟩
  · exact ⟨t, by rw [ht]; rfl, ho⟩
  · rw [ht]
    exact hs k o hl'

theorem Stamped.find (hs : Stamped H σ) (key now : ℕ) :
    Stamped (H ++ [(.find key now, .found (σ.find key now).1)]) (σ.find key now).2 := by
  refine hs.of_touch fun k o hl => ?_
  unfold RedisLRUCache.find at hl ⊢
  cases hk : σ.m_map.lookup key with
  | none => exact Or.inr ⟨rfl, by simpa [hk] using hl⟩
  | some o' =>
    simp only [hk] at hl
    by_cases h : key = k
    · subst h
      rw [Finmap.lookup_insert] at hl
      cases hl
      exact Or.inl ⟨now, by simp [touch], rfl⟩
    · rw [Finmap.lookup_insert_of_ne _ (Ne.symm h)] at hl
      exact Or.inr ⟨by simp [touch, h], hl⟩

theorem Stamped.insert {key : ℕ} {value : V} {passes : List Pass} {b : Bool} (hs : Stamped H σ)
    (hi : σ.insert key value now passes = .ok (b, σ')) :
    Stamped (H ++ [(.insert key value now passes, .inserted b)]) σ' := by
  refine hs.of_touch fun k o hl => ?_
  unfold RedisLRUCache.insert at hi
  split_ifs at hi with hk
  · cases hi
    exact Or.inr ⟨rfl, hl⟩
  · -- with an eviction or without one, what is left was there once the new key was in the map
    have hent : b = true ∧ (σ.enter key value now).m_map.lookup k = some o := by
      dsimp only at hi
      split_ifs at hi with hroom
      · cases hi
        exact ⟨rfl, hl⟩
      · cases hp : (σ.enter key value now).performEvictions passes with
        | error e => simp [hp] at hi
        | ok σ₁ =>
          simp only [hp, ok_bind, pure_eq_ok, Except.ok.injEq, Prod.mk.injEq] at hi
          obtain ⟨rfl, rfl⟩ := hi
          exact ⟨rfl, performEvictions_lookup passes hp hl⟩
    obtain ⟨rfl, hl⟩ := hent
    rw [enter] at hl
    by_cases h : key = k
    · subst h
      rw [Finmap.lookup_insert] at hl
      cases hl
      exact Or.inl ⟨now, by simp [touch], rfl⟩
    · rw [Finmap.lookup_insert_of_ne _ (Ne.symm h)] at hl
      exact Or.inr ⟨by simp [touch, h], hl⟩

theorem Stamped.run {P : RedisLRUCache V → RedisCall V → Prop} {n : ℕ}
    (hrun : Run RedisLRUCache.step P (RedisLRUCache.init n) H σ) : Stamped H σ := by
  induction hrun with
  | nil => exact fun k o hl => by simp [RedisLRUCache.init] at hl
  | @snoc H s₁ s₂ c a _ _ hstep ih =>
    cases c with
    | find key now =>
      cases hstep
      exact ih.find key now
    | insert key value now passes =>
      cases hi : s₁.insert key value now passes with
      | error e => simp [RedisLRUCache.step, hi] at hstep
      | ok r =>
        simp only [RedisLRUCache.step, hi, ok_bind, pure_eq_ok, Except.ok.injEq, Prod.mk.injEq]
          at hstep
        obtain ⟨rfl, rfl⟩ := hstep
        exact ih.insert hi

/-! ### The order of the idle times -/

/-- The last bits of the two times are in order, or they are apart by less than what the clock still
    has to go until the idle time of the first grows by one. -/
def InOrder (now t₁ t₂ : ℕ) : Prop :=
  t₁ % 2 ^ 32 ≤ t₂ % 2 ^ 32 ∨ (now - t₁ % 2 ^ 32) % 100 + (t₁ % 2 ^ 32 - t₂ % 2 ^ 32) < 100

instance (now t₁ t₂ : ℕ) : Decidable (InOrder now t₁ t₂) := inferInstanceAs (Decidable (_ ∨ _))

/-- A clock past the touch is past its last bits, so that the branch for a wrapped clock is never
    taken. -/
theorem estimateObjectIdleTime_mod (h : t ≤ now) :
    estimateObjectIdleTime now (t % 2 ^ 32) = (now - t % 2 ^ 32) / 100 :=
  if_pos ((Nat.mod_le t _).trans h)

theorem estimateObjectIdleTime_le_iff (h₁ : t₁ ≤ now) (h₂ : t₂ ≤ now) :
    estimateObjectIdleTime now (t₂ % 2 ^ 32) ≤ estimateObjectIdleTime now (t₁ % 2 ^ 32) ↔
    InOrder now t₁ t₂ := by
  rw [estimateObjectIdleTime_mod h₁, estimateObjectIdleTime_mod h₂, InOrder]
  have hb₁ := (Nat.mod_le t₁ (2 ^ 32)).trans h₁
  have hb₂ := (Nat.mod_le t₂ (2 ^ 32)).trans h₂
  generalize t₁ % 2 ^ 32 = b₁ at *
  generalize t₂ % 2 ^ 32 = b₂ at *
  constructor
  · intro h
    by_cases hle : b₁ ≤ b₂
    · exact Or.inl hle
    · -- the second idle time counts from `b₁ - b₂` before the first, and no unit ends in between
      right
      omega
  · rintro (h | h)
    · exact Nat.div_le_div_right (Nat.sub_le_sub_left h now)
    · omega

/-- Of two objects the one touched first has the larger idle time exactly if the last 32 bits of the
    two times are in order, up to the resolution. In a sample of which any two are so, an object
    whose idle time is the largest was touched no later than the others. -/
theorem idle_times_in_order_iff {P : RedisLRUCache V → RedisCall V → Prop} {n : ℕ}
    (hrun : Run RedisLRUCache.step P (RedisLRUCache.init n) H σ) :
    (∀ k ∈ σ.m_map, ∃ t, lastTouch k H = some t) ∧
    (∀ k₁ k₂ o₁ o₂ t₁ t₂ now, σ.m_map.lookup k₁ = some o₁ → σ.m_map.lookup k₂ = some o₂ →
      lastTouch k₁ H = some t₁ → lastTouch k₂ H = some t₂ → t₁ ≤ t₂ → t₂ ≤ now →
      (estimateObjectIdleTime now o₂.lru ≤ estimateObjectIdleTime now o₁.lru ↔ InOrder now t₁ t₂)) ∧
    ∀ (now : ℕ) (S : Finset ℕ) (time idle : ℕ → ℕ),
      (∀ k ∈ S, lastTouch k H = some (time k) ∧ time k ≤ now ∧
        ∃ o, σ.m_map.lookup k = some o ∧ idle k = estimateObjectIdleTime now o.lru) →
      (∀ k₁ ∈ S, ∀ k₂ ∈ S, time k₁ ≤ time k₂ → InOrder now (time k₁) (time k₂)) →
      ∀ k ∈ S, (∀ k' ∈ S, k' ≠ k → idle k' < idle k) → ∀ k' ∈ S, time k ≤ time k' := by
  have hs := Stamped.run hrun
  have hidle : ∀ k o t, σ.m_map.lookup k = some o → lastTouch k H = some t →
      o.lru = t % 2 ^ 32 := by
    intro k o t hl ht
    obtain ⟨t', ht', ho⟩ := hs k o hl
    rw [ht] at ht'
    cases ht'
    exact ho
  refine ⟨fun k hk => ?_, fun k₁ k₂ o₁ o₂ t₁ t₂ now h₁ h₂ ht₁ ht₂ hle hnow => ?_,
    fun now S time idle hS hord k hk hmax k' hk' => ?_⟩
  · obtain ⟨o, ho⟩ := Finmap.mem_iff.mp hk
    obtain ⟨t, ht, -⟩ := hs k o ho
    exact ⟨t, ht⟩
  · rw [hidle k₁ o₁ t₁ h₁ ht₁, hidle k₂ o₂ t₂ h₂ ht₂]
    exact estimateObjectIdleTime_le_iff (hle.trans hnow) hnow
  · -- one touched earlier would be idle for at least as long
    by_contra hlt
    rw [not_le] at hlt
    obtain ⟨ht, hn, o, hl, hi⟩ := hS k hk
    obtain ⟨ht', hn', o', hl', hi'⟩ := hS k' hk'
    have hle := (estimateObjectIdleTime_le_iff hn' hn).mpr (hord k' hk' k hk hlt.le)
    rw [← hidle k o _ hl ht, ← hidle k' o' _ hl' ht', ← hi, ← hi'] at hle
    have := hmax k' hk' (by rintro rfl; exact lt_irrefl _ hlt)
    omega

/-- The key touched at 100 is idle for longer than the one touched at 900. -/
theorem idle_times_in_order_iff_two : ∃ σ : RedisLRUCache Unit, ∃ o₁ o₂,
    σ.m_map.lookup 1 = some o₁ ∧ σ.m_map.lookup 2 = some o₂ ∧
    estimateObjectIdleTime 1000 o₂.lru ≤ estimateObjectIdleTime 1000 o₁.lru := by
  obtain ⟨σ, hrun, h₁, h₂⟩ : ∃ σ,
    Run RedisLRUCache.step NonZero (RedisLRUCache.init 2 : RedisLRUCache Unit)
      [(.insert 1 () 100 [], .inserted true), (.insert 2 () 900 [], .inserted true)] σ ∧
      σ.m_map.lookup 1 = some ⟨(), 100⟩ ∧ σ.m_map.lookup 2 = some ⟨(), 900⟩ :=
    ⟨_, .cons (by decide) rfl (.cons (by decide) rfl .nil), rfl, rfl⟩
  exact ⟨σ, _, _, h₁, h₂, ((idle_times_in_order_iff hrun).2.1 1 2 _ _ 100 900 1000 h₁ h₂ rfl rfl
    (by decide) (by decide)).mpr (by decide)⟩

/-- The clock passes `2 ^ 32` between two touches: the object touched first seems to be idle for one
    unit, and the other for all of the time since the clock's zero. -/
theorem idle_time_of_later_touch_larger : ∃ σ : RedisLRUCache Unit, ∃ o₁ o₂,
    Run RedisLRUCache.step NonZero (RedisLRUCache.init 2)
      [(.insert 1 () (2 ^ 32 - 100) [], .inserted true), (.insert 2 () (2 ^ 32) [], .inserted true)]
      σ ∧
    σ.m_map.lookup 1 = some o₁ ∧ σ.m_map.lookup 2 = some o₂ ∧
    estimateObjectIdleTime (2 ^ 32) o₁.lru = 1 ∧
    estimateObjectIdleTime (2 ^ 32) o₂.lru = 42949672 :=
  ⟨_, ⟨(), 2 ^ 32 - 100⟩, ⟨(), 0⟩, .cons (by decide) rfl (.cons (by decide) rfl .nil), rfl, rfl,
    rfl, rfl⟩

end FrozenHot.RedisLRUCache
