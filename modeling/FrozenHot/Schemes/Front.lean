import FrozenHot.Schemes.Heap

/-! Lookups through an index in front of a table, while both change.

    A lookup reads whether the index is in use, then the index, then whether the index is complete,
    and at last the table, each at a moment of its own. As long as entries of the index are copied
    from the table, it answers with what the table held at some moment of the lookup; a miss is only
    in doubt if the index was completed meanwhile. -/

namespace Schemes

variable {K V : Type}

/-- The table, the index, and whether the index is in use and complete. -/
structure Front (K V : Type) where
  table : K → Option V
  index : K → Option V
  ready : Bool
  total : Bool

namespace Front
variable {v v' : Front K V}

/-- An index in use has entries of the table, and a complete one has all of them. -/
structure Sound (v : Front K V) : Prop where
  index : v.ready = true → ∀ k x, v.index k = some x → v.table k = some x
  total : v.total = true → ∀ k, v.index k = none → v.table k = none

theorem sound_of_unused (hready : v.ready = false) (htotal : v.total = false) : v.Sound :=
  ⟨fun h => absurd (h.symm.trans hready) (by simp), fun h => absurd (h.symm.trans htotal) (by simp)⟩

/-- The entries that are new to the index are in the table. -/
def Copies (v v' : Front K V) : Prop :=
  ∀ k x, v'.index k = some x → v.index k = some x ∨ v'.table k = some x

theorem copies_of_index (h : v'.index = v.index) : v.Copies v' :=
  fun k x hx => Or.inl (by rw [← h]; exact hx)

end Front

/-- What a lookup reads next. -/
inductive Probe where
  | flags | index | total | table
  deriving DecidableEq

/-- What it reads: an answer, or what to read then. -/
def Probe.read (v : Front K V) (k : K) : Probe → Option V ⊕ Probe
  | .flags => .inr (if v.ready then .index else .table)
  | .index => match v.index k with
    | some x => .inl (some x)
    | none => .inr .total
  | .total => if v.total then .inl none else .inr .table
  | .table => .inl (v.table k)

/-- A lookup under way, with what the table has held under its key since it began, and whether the
    index was completed since. -/
structure Flight (K V : Type) where
  key : K
  probe : Probe
  seen : List (Option V)
  risen : Bool

namespace Flight
variable {v v' : Front K V} {f : Flight K V}

def start (v : Front K V) (key : K) : Flight K V := ⟨key, .flags, [v.table key], false⟩

/-- The table and the index change. -/
def observe (v v' : Front K V) (f : Flight K V) : Flight K V :=
  { f with seen := v'.table f.key :: f.seen, risen := f.risen || (!v.total && v'.total) }

/-- The answer was right at some moment of the lookup, or it is a miss and the index was completed
    meanwhile. -/
def Justified (f : Flight K V) (a : Option V) : Prop := a ∈ f.seen ∨ a = none ∧ f.risen = true

/-- What an answer can be justified with later on. -/
structure Fits (v : Front K V) (f : Flight K V) : Prop where
  now : v.table f.key ∈ f.seen
  hit : f.probe = .index → ∀ x, v.index f.key = some x → some x ∈ f.seen
  miss : f.probe = .total → v.total = true → none ∈ f.seen ∨ f.risen = true

theorem fits_start (v : Front K V) (key : K) : Fits v (start v key) :=
  ⟨by simp [start], (fun h => by cases h), (fun h => by cases h)⟩

theorem Fits.observe (hf : Fits v f) (hc : v.Copies v') : Fits v' (f.observe v v') := by
  refine ⟨by simp [Flight.observe], fun hp x hx => ?_, fun hp ht => ?_⟩
  · rcases hc _ x hx with h | h
    · exact List.mem_cons_of_mem _ (hf.hit hp x h)
    · rw [← h]
      exact List.mem_cons_self
  · cases hv : v.total with
    | true =>
      rcases hf.miss hp hv with h | h
      · exact Or.inl (List.mem_cons_of_mem _ h)
      · exact Or.inr (by simp [Flight.observe, h])
    | false => exact Or.inr (by simp [Flight.observe, hv, ht])

/-- A read of a sound index and its table: the answer is justified, or the lookup goes on. -/
theorem Fits.read (hf : Fits v f) (hs : v.Sound) :
    (∀ a, f.probe.read v f.key = .inl a → f.Justified a) ∧
    ∀ p, f.probe.read v f.key = .inr p → Fits v { f with probe := p } := by
  cases hp : f.probe with
  | flags =>
    refine ⟨(fun a ha => by cases ha), fun p ha => ?_⟩
    cases hr : v.ready with
    | true =>
      simp only [Probe.read, hr, if_true, Sum.inr.injEq] at ha
      subst ha
      refine ⟨hf.now, fun _ x hx => ?_, fun h => by cases h⟩
      rw [← hs.index hr f.key x hx]
      exact hf.now
    | false =>
      simp only [Probe.read, hr, Bool.false_eq_true, if_false, Sum.inr.injEq] at ha
      subst ha
      exact ⟨hf.now, (fun h => by cases h), (fun h => by cases h)⟩
  | index =>
    simp only [Probe.read]
    cases hx : v.index f.key with
    | some x =>
      refine ⟨fun a ha => ?_, fun p ha => by cases ha⟩
      cases ha
      exact Or.inl (hf.hit hp x hx)
    | none =>
      refine ⟨(fun a ha => by cases ha), fun p ha => ?_⟩
      cases ha
      refine ⟨hf.now, (fun h => by cases h), fun _ ht => Or.inl ?_⟩
      rw [← hs.total ht f.key hx]
      exact hf.now
  | total =>
    simp only [Probe.read]
    cases ht : v.total with
    | true =>
      refine ⟨fun a ha => ?_, fun p ha => by cases ha⟩
      cases ha
      exact (hf.miss hp ht).imp id fun h => ⟨rfl, h⟩
    | false =>
      refine ⟨(fun a ha => by cases ha), fun p ha => ?_⟩
      cases ha
      exact ⟨hf.now, (fun h => by cases h), (fun h => by cases h)⟩
  | table =>
    refine ⟨fun a ha => ?_, fun p ha => by cases ha⟩
    cases ha
    exact Or.inl hf.now

end Flight
end Schemes
