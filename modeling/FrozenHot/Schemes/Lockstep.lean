import FrozenHot.Schemes.Run
import FrozenHot.Schemes.Heap

/-! Two computations in lock step.

    `Agree R x y` says that both return, with results related by `R`, or both end in the same fault.
    It is closed under the constructs of a `do` block, and the accesses to two heaps with related
    contents agree; a function over heaps is then shown to agree with itself by going through its
    text. -/

namespace Schemes

variable {A A' B B' ε : Type} {R : A → A' → Prop} {Q : B → B' → Prop}

/-- Related results, or the same fault. -/
inductive Agree (R : A → A' → Prop) : Except ε A → Except ε A' → Prop
  | ok {a : A} {a' : A'} : R a a' → Agree R (.ok a) (.ok a')
  | error (e : ε) : Agree R (.error e) (.error e)

theorem Agree.bind {x : Except ε A} {x' : Except ε A'} {k : A → Except ε B} {k' : A' → Except ε B'}
    (hx : Agree R x x') (hk : ∀ a a', R a a' → Agree Q (k a) (k' a')) :
    Agree Q (x >>= k) (x' >>= k') := by
  cases hx with
  | ok h => exact hk _ _ h
  | error e => exact .error e

theorem Agree.ite {x y : Except ε A} {x' y' : Except ε A'} {c c' : Prop} [Decidable c]
    [Decidable c'] (hc : c ↔ c') (hx : c → Agree R x x') (hy : ¬ c → Agree R y y') :
    Agree R (if c then x else y) (if c' then x' else y') := by
  by_cases h : c
  · rw [if_pos h, if_pos (hc.mp h)]; exact hx h
  · rw [if_neg h, if_neg (fun h' => h (hc.mpr h'))]; exact hy h

theorem Agree.assert {c c' : Prop} [Decidable c] [Decidable c'] (hc : c ↔ c') :
    Agree (fun _ _ => True) (assert c) (assert c') :=
  Agree.ite hc (fun _ => .ok trivial) (fun _ => .error _)

/-- The answers are the same, if related results have the same answers. -/
theorem Agree.map_eq {C : Type} {x : Except ε A} {x' : Except ε A'} {p : A → C} {p' : A' → C}
    (hx : Agree R x x') (hp : ∀ a a', R a a' → p a = p' a') : x.map p = x'.map p' := by
  cases hx with
  | ok h => exact congrArg Except.ok (hp _ _ h)
  | error e => rfl

/-- Two machines in lock step, on related inputs. -/
theorem Agree.exec {S S' I O : Type} {step : S → I → Except Fault (O × S)}
    {step' : S' → I → Except Fault (O × S')} {rel : S → S' → Prop} {D : I → Prop} {f : I → I}
    (hstep : ∀ s s' i, D i → rel s s' → Agree (fun r r' => r.1 = r'.1 ∧ rel r.2 r'.2) (step s i)
      (step' s' (f i))) :
    ∀ {l : List I} {s : S} {s' : S'}, (∀ i ∈ l, D i) → rel s s' →
      Agree (fun r r' => r.1 = r'.1 ∧ rel r.2 r'.2) (exec step s l) (exec step' s' (l.map f))
  | [], _, _, _, hr => .ok ⟨rfl, hr⟩
  | i :: l, s, s', hD, hr => by
    refine (hstep s s' i (hD i (by simp)) hr).bind fun r r' hrr => ?_
    refine (Agree.exec hstep (fun j hj => hD j (by simp [hj])) hrr.2).bind fun t t' htt => ?_
    exact .ok ⟨by rw [hrr.1, htt.1], htt.2⟩

/-! ### Heaps with related contents -/

namespace Heap
variable {P D D' : Type} {ρ : D → D' → Prop}

/-- The same links, and related contents. -/
def Related (ρ : D → D' → Prop) (h : Heap P D) (h' : Heap P D') : Prop :=
  ∀ p, Option.Rel (fun c c' => c.prev = c'.prev ∧ c.next = c'.next ∧ ρ c.val c'.val) (h p) (h' p)

variable {h : Heap P D} {h' : Heap P D'} {d : D} {d' : D'} {o : Option (Cell P D)}
    {o' : Option (Cell P D')}

theorem Related.read (hr : Related ρ h h') (p : P) :
    Agree (fun c c' => c.prev = c'.prev ∧ c.next = c'.next ∧ ρ c.val c'.val) (h.read p)
    (h'.read p) := by
  have hp := hr p
  unfold Heap.read
  generalize h p = o at hp ⊢
  generalize h' p = o' at hp ⊢
  cases hp with
  | some hc => exact .ok hc
  | none => exact .error _

theorem Related.getNext (hr : Related ρ h h') (p : P) : Agree Eq (h.getNext p) (h'.getNext p) :=
  (hr.read p).bind fun _ _ hc => .ok hc.2.1

theorem Related.getPrev (hr : Related ρ h h') (p : P) : Agree Eq (h.getPrev p) (h'.getPrev p) :=
  (hr.read p).bind fun _ _ hc => .ok hc.1

theorem Related.getVal (hr : Related ρ h h') (p : P) : Agree ρ (h.getVal p) (h'.getVal p) :=
  (hr.read p).bind fun _ _ hc => .ok hc.2.2

variable [DecidableEq P]

theorem Related.put (hr : Related ρ h h') (p : P)
    (hc : Option.Rel (fun c c' => c.prev = c'.prev ∧ c.next = c'.next ∧ ρ c.val c'.val) o o') :
    Related ρ (h.put p o) (h'.put p o') := by
  intro q
  unfold Heap.put
  by_cases hq : q = p
  · rw [if_pos hq, if_pos hq]; exact hc
  · rw [if_neg hq, if_neg hq]; exact hr q

theorem Related.free (hr : Related ρ h h') (p : P) : Related ρ (h.free p) (h'.free p) :=
  hr.put p .none

theorem Related.setNext (hr : Related ρ h h') (p q : P) :
    Agree (Related ρ) (h.setNext p q) (h'.setNext p q) :=
  (hr.read p).bind fun _ _ hc => .ok (hr.put p (.some ⟨hc.1, rfl, hc.2.2⟩))

theorem Related.setPrev (hr : Related ρ h h') (p q : P) :
    Agree (Related ρ) (h.setPrev p q) (h'.setPrev p q) :=
  (hr.read p).bind fun _ _ hc => .ok (hr.put p (.some ⟨rfl, hc.2.1, hc.2.2⟩))

/-! ### A heap with more cells -/

/-- `h'` holds what `h` holds, and perhaps other cells at the pointers `B`, to which no cell of `h`
    points. -/
structure Beside (B : P → Prop) (h h' : Heap P D) : Prop where
  same : ∀ p, ¬ B p → h' p = h p
  apart : ∀ p c, ¬ B p → h p = some c → ¬ B c.prev ∧ ¬ B c.next

section Beside
variable {B : P → Prop} {k k' : Heap P D} {p q : P}

omit [DecidableEq P] in
theorem Beside.read (hb : Beside B k k') (hp : ¬ B p) :
    Agree (fun c c' => c = c' ∧ ¬ B c.prev ∧ ¬ B c.next) (k.read p) (k'.read p) := by
  unfold Heap.read
  rw [hb.same p hp]
  cases hc : k p with
  | none => exact .error _
  | some c => exact .ok ⟨rfl, hb.apart p c hp hc⟩

omit [DecidableEq P] in
theorem Beside.getNext (hb : Beside B k k') (hp : ¬ B p) :
    Agree (fun q q' => q = q' ∧ ¬ B q) (k.getNext p) (k'.getNext p) :=
  (hb.read hp).bind fun _ _ hc => .ok ⟨by rw [hc.1], hc.2.2⟩

omit [DecidableEq P] in
theorem Beside.getPrev (hb : Beside B k k') (hp : ¬ B p) :
    Agree (fun q q' => q = q' ∧ ¬ B q) (k.getPrev p) (k'.getPrev p) :=
  (hb.read hp).bind fun _ _ hc => .ok ⟨by rw [hc.1], hc.2.1⟩

omit [DecidableEq P] in
theorem Beside.getVal (hb : Beside B k k') (hp : ¬ B p) : Agree Eq (k.getVal p) (k'.getVal p) :=
  (hb.read hp).bind fun _ _ hc => .ok (by rw [hc.1])

theorem Beside.put (hb : Beside B k k') (p : P) {o : Option (Cell P D)}
    (ho : ∀ c ∈ o, ¬ B c.prev ∧ ¬ B c.next) :
    Beside B (k.put p o) (k'.put p o) := by
  refine ⟨fun q hq => ?_, fun q c hq hc => ?_⟩
  · unfold Heap.put
    split
    · rfl
    · exact hb.same q hq
  · unfold Heap.put at hc
    split at hc
    · exact ho c hc
    · exact hb.apart q c hq hc

theorem Beside.free (hb : Beside B k k') (p : P) : Beside B (k.free p) (k'.free p) :=
  hb.put p (by simp)

theorem Beside.setNext (hb : Beside B k k') (hp : ¬ B p) (hq : ¬ B q) :
    Agree (Beside B) (k.setNext p q) (k'.setNext p q) := by
  refine (hb.read hp).bind ?_
  rintro c _ ⟨rfl, hc⟩
  exact .ok (hb.put p (by simpa using ⟨hc.1, hq⟩))

theorem Beside.setPrev (hb : Beside B k k') (hp : ¬ B p) (hq : ¬ B q) :
    Agree (Beside B) (k.setPrev p q) (k'.setPrev p q) := by
  refine (hb.read hp).bind ?_
  rintro c _ ⟨rfl, hc⟩
  exact .ok (hb.put p (by simpa using ⟨hq, hc.2⟩))

theorem Beside.setVal (hb : Beside B k k') (hp : ¬ B p) (d : D) :
    Agree (Beside B) (k.setVal p d) (k'.setVal p d) := by
  refine (hb.read hp).bind ?_
  rintro c _ ⟨rfl, hc⟩
  exact .ok (hb.put p (by simpa using hc))

end Beside
end Heap
end Schemes
