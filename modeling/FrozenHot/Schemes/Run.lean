import FrozenHot.Schemes.Heap

/-! Runs of a machine whose calls may fault.

    `exec` runs a list of inputs and collects the answers. `Run` is a run with its history in which
    every call returned and met a condition at the time it was made. `Simulates` carries one answer
    at a time from a machine to a reference that never faults, and `Simulates.exec` carries whole
    runs. -/

namespace Schemes

variable {S T I O : Type}

/-- Run the inputs one after another; a fault ends the run. -/
def exec (step : S → I → Except Fault (O × S)) : S → List I → Except Fault (List O × S)
  | s, [] => .ok ([], s)
  | s, i :: is => do
    let r ← step s i
    let rest ← exec step r.2 is
    return (r.1 :: rest.1, rest.2)

/-- The answers of a reference machine, and its last state. -/
def answers (ref : T → I → O × T) : T → List I → List O × T
  | t, [] => ([], t)
  | t, i :: is => ((ref t i).1 :: (answers ref (ref t i).2 is).1, (answers ref (ref t i).2 is).2)

/-- From related states every call returns, with the answer of the reference. -/
def Simulates (step : S → I → Except Fault (O × S)) (ref : T → I → O × T) (D : I → Prop)
    (rel : S → T → Prop) : Prop :=
  ∀ s t i, D i → rel s t → ∃ s', step s i = .ok ((ref t i).1, s') ∧ rel s' (ref t i).2

theorem Simulates.exec {step : S → I → Except Fault (O × S)} {ref : T → I → O × T} {D : I → Prop}
    {rel : S → T → Prop} (hsim : Simulates step ref D rel) :
    ∀ {l : List I} {s : S} {t : T}, (∀ i ∈ l, D i) → rel s t →
      ∃ s', exec step s l = .ok ((answers ref t l).1, s') ∧ rel s' (answers ref t l).2
  | [], s, _, _, hr => ⟨s, rfl, hr⟩
  | i :: l, s, t, hD, hr => by
    obtain ⟨s₁, h1, hr₁⟩ := hsim s t i (hD i (by simp)) hr
    obtain ⟨s₂, h2, hr₂⟩ := hsim.exec (l := l) (fun j hj => hD j (by simp [hj])) hr₁
    exact ⟨s₂, by simp [Schemes.exec, h1, h2, answers], hr₂⟩

/-- Running translated inputs is running the machine that translates its inputs. -/
theorem exec_map {J : Type} (step : S → I → Except Fault (O × S)) (f : J → I) :
    ∀ (l : List J) (s : S), exec step s (l.map f) = exec (fun s j => step s (f j)) s l
  | [], _ => rfl
  | j :: l, s => by
    have ih : ∀ r : O × S, exec step r.2 (l.map f) = exec (fun s j => step s (f j)) r.2 l :=
      fun r => exec_map step f l r.2
    simp only [List.map_cons, exec, ih]

/-- A run from `s` to `s'`, with its calls and answers in order: every call met the condition `P`
    when it was made, and returned. -/
inductive Run (step : S → I → Except Fault (O × S)) (P : S → I → Prop) (s : S) :
    List (I × O) → S → Prop where
  | nil : Run step P s [] s
  | snoc {hist : List (I × O)} {s₁ s₂ : S} {i : I} {o : O} : Run step P s hist s₁ → P s₁ i →
      step s₁ i = .ok (o, s₂) → Run step P s (hist ++ [(i, o)]) s₂

/-- What holds at the start and is kept by every call of the run holds after it. -/
theorem Run.invariant {step : S → I → Except Fault (O × S)} {P : S → I → Prop} {s s' : S}
    {hist : List (I × O)} (J : S → Prop) (h0 : J s) (hrun : Run step P s hist s')
    (hstep : ∀ s₁ i o s₂, J s₁ → P s₁ i → (i, o) ∈ hist → step s₁ i = .ok (o, s₂) → J s₂) :
    J s' := by
  induction hrun with
  | nil => exact h0
  | snoc _ hP hs ih =>
    exact hstep _ _ _ _ (ih fun s₁ i o s₂ h1 h2 h3 => hstep s₁ i o s₂ h1 h2 (by simp [h3]))
      hP (by simp) hs

/-- What every call answers that is made while an invariant holds. -/
theorem Run.answers {step : S → I → Except Fault (O × S)} {P : S → I → Prop} {s s' : S}
    {hist : List (I × O)} {J : S → Prop} {A : I → O → Prop} (h0 : J s) (hrun : Run step P s hist s')
    (hstep : ∀ s₁ i o s₂, J s₁ → P s₁ i → step s₁ i = .ok (o, s₂) → J s₂ ∧ A i o) :
    J s' ∧ ∀ x ∈ hist, A x.1 x.2 := by
  induction hrun with
  | nil => exact ⟨h0, by simp⟩
  | snoc _ hP hs ih =>
    obtain ⟨hJ, hA⟩ := ih
    obtain ⟨hJ', ho⟩ := hstep _ _ _ _ hJ hP hs
    refine ⟨hJ', fun x hx => ?_⟩
    rcases List.mem_append.mp hx with hx | hx
    · exact hA x hx
    · rw [List.mem_singleton.mp hx]
      exact ho

/-- A run of one machine is a run of another that answers alike from related states. -/
theorem Run.transfer {step : S → I → Except Fault (O × S)} {step' : T → I → Except Fault (O × T)}
    {P : S → I → Prop} {Q : T → I → Prop} {rel : S → T → Prop}
    (hsim : ∀ s t i o s', rel s t → P s i → step s i = .ok (o, s') →
      Q t i ∧ ∃ t', step' t i = .ok (o, t') ∧ rel s' t')
    {s s' : S} {t : T} {hist : List (I × O)} (hrun : Run step P s hist s') (h0 : rel s t) :
    ∃ t', Run step' Q t hist t' ∧ rel s' t' := by
  induction hrun with
  | nil => exact ⟨t, .nil, h0⟩
  | snoc _ hP hs ih =>
    obtain ⟨t₁, hrun₁, hr₁⟩ := ih
    obtain ⟨hQ, t₂, ht, hr₂⟩ := hsim _ _ _ _ _ hr₁ hP hs
    exact ⟨t₂, .snoc hrun₁ hQ ht, hr₂⟩

/-- Runs one after the other. -/
theorem Run.append {step : S → I → Except Fault (O × S)} {P : S → I → Prop} {s s₁ s' : S}
    {A B : List (I × O)} (h1 : Run step P s A s₁) (h2 : Run step P s₁ B s') :
    Run step P s (A ++ B) s' := by
  induction h2 with
  | nil => simpa using h1
  | snoc _ hP hs ih => rw [← List.append_assoc]; exact .snoc ih hP hs

/-- Rounds of calls, each of which can follow the one before. -/
theorem Run.rounds {step : S → I → Except Fault (O × S)} {P : S → I → Prop} {J : ℕ → S → Prop}
    {s : S} (h0 : J 0 s) (n : ℕ)
    (hround : ∀ m < n, ∀ s, J m s → ∃ A s', Run step P s A s' ∧ J (m + 1) s') :
    ∃ H s', Run step P s H s' ∧ J n s' := by
  induction n with
  | zero => exact ⟨[], s, .nil, h0⟩
  | succ n ih =>
    obtain ⟨H, s₁, hrun, h1⟩ := ih fun m hm => hround m (Nat.lt_succ_of_lt hm)
    obtain ⟨A, s₂, hnext, h2⟩ := hround n (Nat.lt_succ_self n) s₁ h1
    exact ⟨H ++ A, s₂, hrun.append hnext, h2⟩

/-- A run after a first call. -/
theorem Run.cons {step : S → I → Except Fault (O × S)} {P : S → I → Prop} {s s₁ s' : S} {i : I}
    {o : O} {hist : List (I × O)} (hP : P s i) (hs : step s i = .ok (o, s₁))
    (hrun : Run step P s₁ hist s') :
    Run step P s ((i, o) :: hist) s' := by
  induction hrun with
  | nil => exact Run.snoc (.nil : Run step P s [] s) hP hs
  | snoc _ hP' hs' ih => exact .snoc ih hP' hs'

/-- Inputs that are executed one after another are a run. -/
theorem Run.of_exec {step : S → I → Except Fault (O × S)} : ∀ {l : List I} {s s' : S} {os : List O},
    exec step s l = .ok (os, s') → Run step (fun _ _ => True) s (l.zip os) s'
  | [], s, s', os, h => by
    cases h
    exact .nil
  | i :: l, s, s', os, h => by
    obtain ⟨r, hr, h⟩ := bind_eq_ok.mp h
    obtain ⟨rest, hrest, h⟩ := bind_eq_ok.mp h
    cases h
    exact .cons trivial hr (Run.of_exec hrest)

/-- A run under weaker conditions. -/
theorem Run.mono {step : S → I → Except Fault (O × S)} {P Q : S → I → Prop}
    (hPQ : ∀ s i, P s i → Q s i) {s s' : S} {hist : List (I × O)} (hrun : Run step P s hist s') :
    Run step Q s hist s' := by
  induction hrun with
  | nil => exact .nil
  | snoc _ hP hs ih => exact .snoc ih (hPQ _ _ hP) hs

/-- The machine that tests the condition of each call. -/
def checked (P : S → I → Prop) [∀ s i, Decidable (P s i)] (step : S → I → Except Fault (O × S))
    (s : S) (i : I) :
    Except Fault (O × S) :=
  if P s i then step s i else throw .diverge

/-- Inputs that are executed with their conditions tested are a run under these conditions. -/
theorem Run.of_checked {step : S → I → Except Fault (O × S)} {P : S → I → Prop}
    [∀ s i, Decidable (P s i)] {l : List I} {s s' : S} {os : List O}
    (h : exec (checked P step) s l = .ok (os, s')) : Run step P s (l.zip os) s' := by
  have hsim : ∀ s t i o s', s = t → True → checked P step s i = .ok (o, s') →
      P t i ∧ ∃ t', step t i = .ok (o, t') ∧ s' = t' := by
    rintro s t i o s' rfl - hs
    unfold checked at hs
    split at hs
    · exact ⟨‹_›, s', hs, rfl⟩
    · cases hs
  obtain ⟨_, hrun, rfl⟩ := (Run.of_exec h).transfer hsim rfl
  exact hrun

theorem exec_of_checked {step : S → I → Except Fault (O × S)} {P : S → I → Prop}
    [∀ s i, Decidable (P s i)] : ∀ {l : List I} {s : S} {r : List O × S},
    exec (checked P step) s l = .ok r → exec step s l = .ok r
  | [], _, _, h => h
  | i :: l, s, r, h => by
    obtain ⟨x, hx, h⟩ := bind_eq_ok.mp h
    obtain ⟨rest, hrest, h⟩ := bind_eq_ok.mp h
    unfold checked at hx
    split at hx
    · rw [exec, hx, ok_bind, exec_of_checked hrest]
      exact h
    · cases hx

/-- A run splits where its history does. -/
theorem Run.split {step : S → I → Except Fault (O × S)} {P : S → I → Prop} {s s' : S}
    {A B : List (I × O)} (hrun : Run step P s (A ++ B) s') :
    ∃ s₁, Run step P s A s₁ ∧ Run step P s₁ B s' := by
  induction B using List.reverseRecOn generalizing s' with
  | nil => exact ⟨s', by simpa using hrun, .nil⟩
  | append_singleton B x ih =>
    rw [← List.append_assoc] at hrun
    generalize hH : A ++ B ++ [x] = H at hrun
    cases hrun with
    | nil => simp at hH
    | snoc h1 hP hs =>
      obtain ⟨rfl, hx⟩ := List.append_inj' hH rfl
      cases hx
      obtain ⟨s₁, hA, hB⟩ := ih h1
      exact ⟨s₁, hA, .snoc hB hP hs⟩

/-- What is noted down at the calls of a run, in order. -/
def trail {X : Type} (step : S → I → Except Fault (O × S)) (note : S → I → Option X) :
    S → List I → List X
  | _, [] => []
  | s, i :: is => (note s i).toList ++
    match step s i with
    | .ok r => trail step note r.2 is
    | .error _ => []

theorem Run.trail_append {X : Type} {step : S → I → Except Fault (O × S)} {note : S → I → Option X}
    {P : S → I → Prop} {s s' : S} {hist : List (I × O)} (hrun : Run step P s hist s')
    (is : List I) :
    trail step note s (hist.map Prod.fst ++ is) =
      trail step note s (hist.map Prod.fst) ++ trail step note s' is := by
  induction hrun generalizing is with
  | nil => rfl
  | @snoc hist s₁ s₂ i o _ _ hs ih =>
    have hlast := ih [i]
    have hrest := ih (i :: is)
    simp only [trail, hs, List.append_nil] at hlast hrest
    rw [List.map_append, List.map_singleton, List.append_assoc, List.singleton_append, hrest, hlast,
      List.append_assoc]

/-- What holds at the start with nothing noted down, and is kept by every call with what is noted
    down at it, holds after the run with all that is noted down. -/
theorem Run.invariant_trail {X : Type} {step : S → I → Except Fault (O × S)}
    {note : S → I → Option X} {P : S → I → Prop} {s s' : S} {hist : List (I × O)}
    (J : S → List X → Prop) (h0 : J s []) (hrun : Run step P s hist s')
    (hstep : ∀ s₁ seen i o s₂, J s₁ seen → P s₁ i → (i, o) ∈ hist → step s₁ i = .ok (o, s₂) →
      J s₂ (seen ++ (note s₁ i).toList)) :
    J s' (trail step note s (hist.map Prod.fst)) := by
  induction hrun with
  | nil => exact h0
  | @snoc hist s₁ s₂ i o hrun hP hs ih =>
    have hJ := ih fun s₁ seen i o s₂ h1 h2 h3 => hstep s₁ seen i o s₂ h1 h2 (by simp [h3])
    rw [List.map_append, List.map_singleton, hrun.trail_append]
    simpa [trail, hs] using hstep _ _ _ _ _ hJ hP (by simp) hs

theorem Run.eq_of_nil {step : S → I → Except Fault (O × S)} {P : S → I → Prop} {s s' : S}
    (hrun : Run step P s [] s') : s = s' := by
  generalize hH : ([] : List (I × O)) = H at hrun
  cases hrun with
  | nil => rfl
  | snoc _ _ _ => simp at hH

/-- A run of one call. -/
theorem Run.single {step : S → I → Except Fault (O × S)} {P : S → I → Prop} {s s' : S} {i : I}
    {o : O} (hrun : Run step P s [(i, o)] s') : P s i ∧ step s i = .ok (o, s') := by
  generalize hH : [(i, o)] = H at hrun
  cases hrun with
  | nil => cases hH
  | snoc h1 hP hs =>
    rw [← List.nil_append [(i, o)]] at hH
    obtain ⟨rfl, hx⟩ := List.append_inj' hH rfl
    cases hx
    obtain rfl := h1.eq_of_nil
    exact ⟨hP, hs⟩

end Schemes
