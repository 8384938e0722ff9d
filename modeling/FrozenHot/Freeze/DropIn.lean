import FrozenHot.Freeze.Remainder

/-! With freezing never used, the FrozenHot list caches are drop-in replacements for the plain
    ones. -/

namespace FrozenHot
open Schemes ListShard

variable {α : Type}

def Request.Valid {V : Type} : Request V → Prop
  | .read k _ | .delete_key k => ValidKey k

/-- A request to a FrozenHot list cache, with its `size()` afterwards. -/
def FHList.request (κ : FHList) (σ : Shard α) (r : Bool × Request (Option α)) :
    Except Fault ((Option (Got (Option α)) × ℕ) × Shard α) := do
  match r.2 with
  | .read k v =>
    let o ← Client.get (κ.find r.1 · k) (Shard.insert · k v) σ
    return ((some o.1, o.2.m_size), o.2)
  | .delete_key k =>
    let σ ← σ.delete_key k
    return ((none, σ.m_size), σ)

/-- A request to the plain cache it replaces. -/
def FHList.replaced {V : Type} : FHList → PlainCache ℕ V → Bool × Request V →
    Except Fault ((Option (Got V) × ℕ) × PlainCache ℕ V)
  | .LRU_FH => LRUCache.request
  | .FIFO_FH => FIFOCache.request

/-- The reference cache of either. -/
def FHList.reference {V : Type} (κ : FHList) (N : ℕ) (C : List (ℕ × V)) (r : Bool × Request V) :=
  Reference.request N C (κ.promotes r.1, r.2)

/-- A shard in plain mode answers requests as the reference cache does. -/
theorem FHList.request_simulates (κ : FHList) (N : ℕ) :
    Simulates (κ.request (α := α)) (κ.reference N)
    (fun r => r.2.Valid) (fun σ C => ∃ τ, PlainMode N σ τ ∧ τ.content = C) := by
  rintro σ _ ⟨lock, r⟩ hv ⟨τ, hp, rfl⟩
  cases r with
  | read k v =>
    obtain ⟨τ', h1, hplain, hcont⟩ := hp.get hv (κ.promotes lock) v
    obtain ⟨σ', h2, hr'⟩ := hp.rep.get hv κ lock h1
    have hp' := hplain _ hr'
    refine ⟨σ', ?_, τ', hp', hcont⟩
    simp only [FHList.request, h2, ok_bind, pure_eq_ok, FHList.reference,
      Reference.request, ← hcont, hp'.size]
  | delete_key k =>
    obtain ⟨σ', τ', h1, hp', hcont⟩ := hp.delete_key k
    refine ⟨σ', ?_, τ', hp', hcont⟩
    simp only [FHList.request, h1, ok_bind, pure_eq_ok, FHList.reference,
      Reference.request, ← hcont, hp'.size]

/-- So does the plain cache. -/
theorem FHList.replaced_simulates {V : Type} (κ : FHList) {N : ℕ} (hpos : 1 ≤ N) :
    Simulates (κ.replaced (V := V)) (κ.reference N) (fun _ => True) (PlainCache.Content N) := by
  rintro σ C ⟨lock, r⟩ - hc
  obtain ⟨σ', h1, hc'⟩ := PlainCache.request_simulates hpos σ C (κ.promotes lock, r) trivial hc
  refine ⟨σ', ?_, hc'⟩
  cases κ with
  | LRU_FH => exact h1
  | FIFO_FH => exact (FIFOCache.request_eq σ (lock, r)).trans h1

/-- The same requests get the same answers from the FrozenHot cache and from the plain one. -/
theorem FHList.drop_in (κ : FHList) {N : ℕ} (hpos : 1 ≤ N) (rs : List (Bool × Request (Option α)))
    (hv : ∀ r ∈ rs, r.2.Valid) :
    ∃ os σ σ', exec κ.request (Shard.init N : Shard α) rs = .ok (os, σ) ∧
      exec κ.replaced (PlainCache.init N) rs = .ok (os, σ') := by
  obtain ⟨σ, h1, -⟩ := (κ.request_simulates N).exec hv ⟨_, plainMode_init hpos, rfl⟩
  obtain ⟨σ', h2, -⟩ := (κ.replaced_simulates hpos).exec (fun r _ => trivial)
    (PlainCache.content_init N)
  exact ⟨_, σ, σ', h1, h2⟩

end FrozenHot
