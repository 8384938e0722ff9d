import FrozenHot.Schemes.Heap

/-! A read request of the client (`worker_thread` in `client.h`): `find` the key, and on a miss
    `insert` it with a value that is never null. -/

namespace FrozenHot
open Schemes

/-- What a read request saw: the value found, or the result of the insertion. -/
structure Got (V : Type) where
  value : Option V
  inserted : Option Bool
  deriving DecidableEq

/-- A read request against a cache with the given `find` and `insert`. -/
def Client.get {S V : Type} (find : S → Except Fault (Option V × S))
    (insert : S → Except Fault (Bool × S)) (σ : S) : Except Fault (Got V × S) := do
  let r ← find σ
  match r.1 with
  | some v => return (⟨some v, none⟩, r.2)
  | none =>
    let i ← insert r.2
    return (⟨none, some i.1⟩, i.2)

end FrozenHot
