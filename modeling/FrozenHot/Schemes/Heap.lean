import Mathlib.Data.List.Chain
import Mathlib.Data.List.Nodup

/-! Memory of doubly linked cells, with checked accesses.

    A heap maps a pointer to the live cell it designates, if any: reading or writing through a
    pointer to no live cell is a fault, and so is a failed `assert` or a call that never ends. What
    a heap holds is observed with `next`, `prev` and `val`, and every write has lemmas that say what
    is observed after it. -/

namespace Schemes

/-- The ways a call can end without returning. -/
inductive Fault where | assertion | deref | diverge
  deriving DecidableEq, Repr

section Except
variable {ε α β : Type}

@[simp] theorem ok_bind (a : α) (f : α → Except ε β) : (Except.ok a >>= f) = f a := rfl

@[simp] theorem error_bind (e : ε) (f : α → Except ε β) : (Except.error e >>= f) = .error e := rfl

@[simp] theorem pure_eq_ok (a : α) : (pure a : Except ε α) = .ok a := rfl

@[simp] theorem throw_eq_error (e : ε) : (throw e : Except ε α) = .error e := rfl

/-- A computation that returns splits into two that return. -/
theorem bind_eq_ok {x : Except ε α} {f : α → Except ε β} {b : β} :
    (x >>= f) = .ok b ↔ ∃ a, x = .ok a ∧ f a = .ok b := by
  cases x <;> simp

/-- `assert(b)`. -/
def assert (b : Prop) [Decidable b] : Except Fault Unit := if b then .ok () else .error .assertion

@[simp] theorem assert_of {b : Prop} [Decidable b] (hb : b) : assert b = .ok () := if_pos hb

@[simp] theorem assert_not {b : Prop} [Decidable b] (hb : ¬ b) : assert b = .error .assertion :=
  if_neg hb

end Except

/-- A cell: two link fields and the data stored with them. -/
structure Cell (P D : Type) where
  prev : P
  next : P
  val : D

/-- A heap: the live cell at each pointer. -/
def Heap (P D : Type) : Type := P → Option (Cell P D)

namespace Heap
variable {P D : Type}

def empty : Heap P D := fun _ => none

def next (h : Heap P D) (p : P) : Option P := (h p).map Cell.next

def prev (h : Heap P D) (p : P) : Option P := (h p).map Cell.prev

def val (h : Heap P D) (p : P) : Option D := (h p).map Cell.val

def Live (h : Heap P D) (p : P) : Prop := (h p).isSome = true

/-! ### Checked reads -/

def read (h : Heap P D) (p : P) : Except Fault (Cell P D) :=
  match h p with
  | some c => .ok c
  | none => .error .deref

def getNext (h : Heap P D) (p : P) : Except Fault P := do return (← h.read p).next

def getPrev (h : Heap P D) (p : P) : Except Fault P := do return (← h.read p).prev

def getVal (h : Heap P D) (p : P) : Except Fault D := do return (← h.read p).val

section
variable {h : Heap P D} {p q : P} {d : D}

/-- Two heaps with the same observations are the same heap. -/
theorem ext_obs {h h' : Heap P D} (hn : ∀ x, h'.next x = h.next x) (hp : ∀ x, h'.prev x = h.prev x)
    (hv : ∀ x, h'.val x = h.val x) : h' = h := by
  funext x
  have h1 := hn x; have h2 := hp x; have h3 := hv x
  unfold next at h1; unfold prev at h2; unfold val at h3
  cases ha : h' x with
  | none => cases hb : h x with
    | none => rfl
    | some c => rw [ha, hb] at h1; simp at h1
  | some b => cases hb : h x with
    | none => rw [ha, hb] at h1; simp at h1
    | some c =>
      rw [ha, hb] at h1 h2 h3
      simp only [Option.map_some, Option.some.injEq] at h1 h2 h3
      cases b; cases c; simp_all

/-- Two links are written that were there already. -/
theorem eq_of_same_links [DecidableEq P] {h h' : Heap P D} {a b c d a' b' c' d' : P}
    (ha : h.next a = some a') (hb : h.next b = some b') (hc : h.prev c = some c')
    (hd : h.prev d = some d')
    (hn : ∀ x, h'.next x = if x = a then some a' else if x = b then some b' else h.next x)
    (hp : ∀ x, h'.prev x = if x = c then some c' else if x = d then some d' else h.prev x)
    (hv : ∀ x, h'.val x = h.val x) : h' = h := by
  refine ext_obs (fun x => ?_) (fun x => ?_) hv
  · rw [hn]
    split_ifs with h1 h2
    · rw [h1, ha]
    · rw [h2, hb]
    · rfl
  · rw [hp]
    split_ifs with h1 h2
    · rw [h1, hc]
    · rw [h2, hd]
    · rfl

theorem live_iff : h.Live p ↔ ∃ c, h p = some c := Option.isSome_iff_exists

theorem live_of_next (hn : h.next p = some q) : h.Live p := by
  unfold next at hn; unfold Live
  cases hp : h p <;> simp_all

theorem live_of_prev (hn : h.prev p = some q) : h.Live p := by
  unfold prev at hn; unfold Live
  cases hp : h p <;> simp_all

theorem live_of_val (hn : h.val p = some d) : h.Live p := by
  unfold val at hn; unfold Live
  cases hp : h p <;> simp_all

theorem live_iff_val : h.Live p ↔ (h.val p).isSome = true := by simp [Live, val]

theorem Live.val (hp : h.Live p) : ∃ d, h.val p = some d := by
  obtain ⟨c, hc⟩ := live_iff.mp hp
  exact ⟨c.val, by simp [Heap.val, hc]⟩

theorem getNext_eq (hn : h.next p = some q) : h.getNext p = .ok q := by
  unfold next at hn; unfold getNext read
  cases hp : h p <;> simp_all

theorem getPrev_eq (hn : h.prev p = some q) : h.getPrev p = .ok q := by
  unfold prev at hn; unfold getPrev read
  cases hp : h p <;> simp_all

theorem getVal_eq (hn : h.val p = some d) : h.getVal p = .ok d := by
  unfold val at hn; unfold getVal read
  cases hp : h p <;> simp_all

/-- The checked reads as functions of what is observed, for running straight-line code by `simp`. -/
theorem getNext_def (h : Heap P D) (p : P) : h.getNext p = (h.next p).elim (.error .deref) .ok := by
  unfold getNext read next; cases h p <;> rfl

theorem getPrev_def (h : Heap P D) (p : P) : h.getPrev p = (h.prev p).elim (.error .deref) .ok := by
  unfold getPrev read prev; cases h p <;> rfl

theorem getVal_dead (hp : ¬ h.Live p) : h.getVal p = .error .deref := by
  unfold Live at hp; unfold getVal read
  cases hc : h p <;> simp_all

end

/-! ### Writes, and what they do -/

variable [DecidableEq P]

/-- Overwrite what stands at `p`: a cell (allocation) or nothing (release). -/
def put (h : Heap P D) (p : P) (c : Option (Cell P D)) : Heap P D :=
  fun x => if x = p then c else h x

/-- Release the cell at `p`. -/
def free (h : Heap P D) (p : P) : Heap P D := h.put p none

def setNext (h : Heap P D) (p q : P) : Except Fault (Heap P D) := do
  let c ← h.read p
  return h.put p (some { c with next := q })

def setPrev (h : Heap P D) (p q : P) : Except Fault (Heap P D) := do
  let c ← h.read p
  return h.put p (some { c with prev := q })

def setVal (h : Heap P D) (p : P) (d : D) : Except Fault (Heap P D) := do
  let c ← h.read p
  return h.put p (some { c with val := d })

/-- The total versions of the writes: nothing happens at a dead pointer. -/
def withNext (h : Heap P D) (p q : P) : Heap P D :=
  h.put p ((h p).map fun c => { c with next := q })

def withPrev (h : Heap P D) (p q : P) : Heap P D :=
  h.put p ((h p).map fun c => { c with prev := q })

def withVal (h : Heap P D) (p : P) (d : D) : Heap P D :=
  h.put p ((h p).map fun c => { c with val := d })

variable {h : Heap P D} {p q x y : P} {d : D}

theorem setNext_eq (hp : h.Live p) : h.setNext p q = .ok (h.withNext p q) := by
  obtain ⟨c, hc⟩ := live_iff.mp hp
  simp [setNext, read, withNext, hc]

theorem setPrev_eq (hp : h.Live p) : h.setPrev p q = .ok (h.withPrev p q) := by
  obtain ⟨c, hc⟩ := live_iff.mp hp
  simp [setPrev, read, withPrev, hc]

theorem setVal_eq (hp : h.Live p) : h.setVal p d = .ok (h.withVal p d) := by
  obtain ⟨c, hc⟩ := live_iff.mp hp
  simp [setVal, read, withVal, hc]

@[simp] theorem next_put (c : Option (Cell P D)) :
    (h.put p c).next x = if x = p then c.map Cell.next else h.next x := by
  unfold next put; split <;> rfl

@[simp] theorem prev_put (c : Option (Cell P D)) :
    (h.put p c).prev x = if x = p then c.map Cell.prev else h.prev x := by
  unfold prev put; split <;> rfl

@[simp] theorem val_put (c : Option (Cell P D)) :
    (h.put p c).val x = if x = p then c.map Cell.val else h.val x := by
  unfold val put; split <;> rfl

theorem live_put (c : Option (Cell P D)) :
    (h.put p c).Live x ↔ if x = p then c.isSome = true else h.Live x := by
  unfold Live put; split <;> rfl

@[simp] theorem next_free : (h.free p).next x = if x = p then none else h.next x := next_put none

@[simp] theorem prev_free : (h.free p).prev x = if x = p then none else h.prev x := prev_put none

@[simp] theorem val_free : (h.free p).val x = if x = p then none else h.val x := val_put none

theorem live_free : (h.free p).Live x ↔ x ≠ p ∧ h.Live x := by
  rw [free, live_put]; split <;> simp_all

theorem next_withNext (hp : h.Live p) :
    (h.withNext p q).next x = if x = p then some q else h.next x := by
  obtain ⟨c, hc⟩ := live_iff.mp hp
  simp [withNext, hc]

@[simp] theorem prev_withNext : (h.withNext p q).prev x = h.prev x := by
  unfold withNext; rw [prev_put]; split
  · subst x; unfold prev; cases h p <;> rfl
  · rfl

@[simp] theorem val_withNext : (h.withNext p q).val x = h.val x := by
  unfold withNext; rw [val_put]; split
  · subst x; unfold val; cases h p <;> rfl
  · rfl

@[simp] theorem next_withPrev : (h.withPrev p q).next x = h.next x := by
  unfold withPrev; rw [next_put]; split
  · subst x; unfold next; cases h p <;> rfl
  · rfl

theorem prev_withPrev (hp : h.Live p) :
    (h.withPrev p q).prev x = if x = p then some q else h.prev x := by
  obtain ⟨c, hc⟩ := live_iff.mp hp
  simp [withPrev, hc]

@[simp] theorem val_withPrev : (h.withPrev p q).val x = h.val x := by
  unfold withPrev; rw [val_put]; split
  · subst x; unfold val; cases h p <;> rfl
  · rfl

@[simp] theorem next_withVal : (h.withVal p d).next x = h.next x := by
  unfold withVal; rw [next_put]; split
  · subst x; unfold next; cases h p <;> rfl
  · rfl

@[simp] theorem prev_withVal : (h.withVal p d).prev x = h.prev x := by
  unfold withVal; rw [prev_put]; split
  · subst x; unfold prev; cases h p <;> rfl
  · rfl

theorem val_withVal (hp : h.Live p) :
    (h.withVal p d).val x = if x = p then some d else h.val x := by
  obtain ⟨c, hc⟩ := live_iff.mp hp
  simp [withVal, hc]

@[simp] theorem live_withNext : (h.withNext p q).Live x ↔ h.Live x := by
  unfold withNext; rw [live_put]; unfold Live; split <;> simp_all

@[simp] theorem live_withPrev : (h.withPrev p q).Live x ↔ h.Live x := by
  unfold withPrev; rw [live_put]; unfold Live; split <;> simp_all

@[simp] theorem live_withVal : (h.withVal p d).Live x ↔ h.Live x := by
  unfold withVal; rw [live_put]; unfold Live; split <;> simp_all

end Heap

end Schemes
