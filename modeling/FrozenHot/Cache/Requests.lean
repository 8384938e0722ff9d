import FrozenHot.Cache.PlainPolicy
import FrozenHot.Cache.Client

/-! Requests of one client against a reference cache: a read is a lookup and, on a miss, an
    insertion. -/

namespace FrozenHot
open Schemes

/-- The requests of the client. -/
inductive Request (V : Type) where
  | read (k : ℕ) (v : V)
  | delete_key (k : ℕ)

variable {V : Type}

/-- A read request to a reference cache of capacity `cap`. -/
def Reference.read (cap : ℕ) (promote : Bool) (C : List (ℕ × V)) (k : ℕ) (v : V) :
    Got V × List (ℕ × V) :=
  match (Policy.find promote C k).1 with
  | some w => (⟨some w, none⟩, (Policy.find promote C k).2)
  | none =>
    let r := Policy.insert cap (Policy.find promote C k).2 k v
    (⟨none, some r.1⟩, r.2)

/-- A request to a reference cache, with the number of entries afterwards. -/
def Reference.request (cap : ℕ) (C : List (ℕ × V)) (r : Bool × Request V) :
    (Option (Got V) × ℕ) × List (ℕ × V) :=
  match r.2 with
  | .read k v =>
    let o := Reference.read cap r.1 C k v
    ((some o.1, o.2.length), o.2)
  | .delete_key k => ((none, (Policy.drop C k).length), Policy.drop C k)

/-- A request to `LRUCache`, with its `size()` afterwards. -/
def LRUCache.request (σ : PlainCache ℕ V) (r : Bool × Request V) :
    Except Fault ((Option (Got V) × ℕ) × PlainCache ℕ V) := do
  match r.2 with
  | .read k v =>
    let o ← Client.get (LRUCache.find r.1 · k) (PlainCache.insert · k v) σ
    return ((some o.1, o.2.m_size), o.2)
  | .delete_key k =>
    let σ ← σ.delete_key k
    return ((none, σ.m_size), σ)

/-- A request to `FIFOCache`. -/
def FIFOCache.request (σ : PlainCache ℕ V) (r : Bool × Request V) :
    Except Fault ((Option (Got V) × ℕ) × PlainCache ℕ V) := do
  match r.2 with
  | .read k v =>
    let o ← Client.get (FIFOCache.find · k) (PlainCache.insert · k v) σ
    return ((some o.1, o.2.m_size), o.2)
  | .delete_key k =>
    let σ ← σ.delete_key k
    return ((none, σ.m_size), σ)

namespace PlainCache
variable {σ : PlainCache ℕ V} {C : List (ℕ × V)} {cap : ℕ}

theorem Content.size (hc : Content cap σ C) : σ.m_size = C.length := by
  obtain ⟨R, hi, rfl, -, -⟩ := hc
  simpa using hi.size

/-- The plain caches answer requests as the reference cache does. -/
theorem request_simulates (hpos : 1 ≤ cap) :
    Simulates (LRUCache.request (V := V)) (Reference.request cap) (fun _ => True)
    (Content cap) := by
  rintro σ C ⟨lock, r⟩ - hc
  cases r with
  | read k v =>
    obtain ⟨σ₁, h1, hc₁⟩ := content_find hc lock k
    cases hf : (Policy.find lock C k).1 with
    | some w =>
      refine ⟨σ₁, ?_, by simpa [Reference.request, Reference.read, hf] using hc₁⟩
      simp [LRUCache.request, Client.get, LRUCache.find, h1, hf, Reference.request, Reference.read,
        hc₁.size]
    | none =>
      obtain ⟨σ₂, h2, hc₂⟩ := content_insert hpos hc₁ k v
      refine ⟨σ₂, ?_, by simpa [Reference.request, Reference.read, hf] using hc₂⟩
      simp [LRUCache.request, Client.get, LRUCache.find, h1, hf, h2, Reference.request,
        Reference.read, hc₂.size]
  | delete_key k =>
    obtain ⟨σ₁, h1, hc₁⟩ := content_delete hc k
    exact ⟨σ₁, by simp [LRUCache.request, h1, Reference.request, hc₁.size], hc₁⟩

end PlainCache

/-- `FIFOCache` is `LRUCache` with a `find` that never promotes. -/
theorem FIFOCache.request_eq (σ : PlainCache ℕ V) (r : Bool × Request V) :
    FIFOCache.request σ r = LRUCache.request σ (false, r.2) := by
  obtain ⟨lock, r⟩ := r
  cases r <;> rfl

end FrozenHot
