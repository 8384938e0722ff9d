import FrozenHot.Freeze.Tally

/-! Taking a call of `insert` out of a run.

    A call that has evicted nothing and linked nothing has changed the map only, by the key it
    holds. The steps of the others do not see that key, so they do the same without the call; and
    the refusal takes the key out of the map again, which is what the run without the call has. -/

namespace FrozenHot.Tally
open Schemes

variable {α : Type} {a : Tally α} {c d : InsertAt α Unit} {s s' : KeyCrowd α} {i : ℕ} {o : Outcome}
variable {e : CrowdStep α}

/-- The map without a key that is held. -/
def drop (a : Tally α) : Option ℕ → Tally α
  | none => a
  | some k => { a with m_map := Function.update a.m_map k none }

@[simp] theorem frozen_drop (k : Option ℕ) : (a.drop k).frozen = a.frozen := by cases k <;> rfl

@[simp] theorem main_drop (k : Option ℕ) : (a.drop k).main = a.main := by cases k <;> rfl

@[simp] theorem tier_no_insert_drop (k : Option ℕ) :
    (a.drop k).tier_no_insert = a.tier_no_insert := by
  cases k <;> rfl

@[simp] theorem fast_hash_construct_drop (k : Option ℕ) :
    (a.drop k).fast_hash_construct = a.fast_hash_construct := by cases k <;> rfl

/-- The places of a call that has evicted nothing and linked nothing. -/
def early : InsertAt α Unit → Bool
  | .entered _ _ | .mapped _ _ => true
  | .evicted _ _ _ evictionDone => !evictionDone
  | .linked _ _ | .counted _ => false

/-! ### One step -/

theorem update_none_comm (m : ℕ → Option (Option α)) (k k' : ℕ) :
    Function.update (Function.update m k none) k' none =
    Function.update (Function.update m k' none) k none := by
  by_cases hk : k = k'
  · rw [hk]
  · exact Function.update_comm hk _ _ _

theorem evictIf_drop (full : Prop) [Decidable full] (k : ℕ) : (a.drop (some k)).evictIf full =
    ((a.evictIf full).1, (a.evictIf full).2.drop (some k)) := by
  unfold evictIf
  split
  · cases hl : a.main.getLast? with
    | none => simp [evict, drop, hl]
    | some x => simp [evict, drop, hl, update_none_comm]
  · rfl

/-- A step of a call does not see the key that another one holds. -/
theorem act_drop (k : Option ℕ) (hk : ∀ key value, c = .entered key value → k ≠ some key) :
    (a.drop k).act c = ((a.act c).1, (a.act c).2.1, (a.act c).2.2.drop k) := by
  cases k with
  | none => rfl
  | some k =>
    cases c with
    | entered key value =>
      have hne : key ≠ k := fun h => hk key value rfl (by rw [h])
      have hcomm : Function.update (Function.update a.m_map k none) key (some value) =
          Function.update (Function.update a.m_map key (some value)) k none :=
        Function.update_comm hne.symm _ _ _
      by_cases hm : a.m_map key = none <;> simp [Tally.act, drop, hne, hm, hcomm]
    | mapped key u => simp only [Tally.act, evictIf_drop]; rfl
    | evicted key u s done =>
      cases ht : a.tier_no_insert <;> simp [Tally.act, drop, ht, update_none_comm]
    | linked s done => rfl
    | counted s => simp only [Tally.act, evictIf_drop]; rfl

/-- A call that stays early changes the map by the key it holds only. -/
theorem act_early (hd : (a.act c).2.1 = some d) (he : early d = true) :
    early c = true ∧ (a.act c).2.2.drop d.held = a.drop c.held := by
  cases c with
  | entered key value =>
    simp only [Tally.act] at hd ⊢
    split at hd
    · rename_i hm
      cases hd
      have hu : Function.update a.m_map key none = a.m_map := by rw [← hm, Function.update_eq_self]
      simp [hm, early, InsertAt.held, InsertAt.entry, drop, hu]
    · cases hd
  | mapped key u =>
    rcases evictIf_cases (a.m_size ≥ a.m_maxSize) a with hev | ⟨M, k, -, hev⟩ <;>
      simp only [Tally.act, hev, Option.some.injEq] at hd ⊢ <;> subst hd
    · exact ⟨rfl, rfl⟩
    · cases he
  | evicted key u s done =>
    simp only [Tally.act] at hd
    split at hd <;> cases hd
    cases he
  | linked s done => cases hd; cases he
  | counted s => cases hd

/-- A refusal is the one of the locked section. -/
theorem act_refused (h : (a.act c).1 = .refused) : ∃ key s done, c = .evicted key () s done ∧
    a.tier_no_insert = true ∧ a.act c = (.refused, none, a.drop c.held) := by
  cases c with
  | entered key value => simp only [Tally.act] at h; split at h <;> cases h
  | mapped key u => cases h
  | evicted key u s done =>
    cases ht : a.tier_no_insert with
    | true => exact ⟨key, s, done, rfl,
        rfl, by simp [Tally.act, ht, drop, InsertAt.held, InsertAt.entry]⟩
    | false => simp [Tally.act, ht] at h
  | linked s done => cases h
  | counted s => cases h

/-- The state as it is without call `i`, as long as that is early. -/
def without (i : ℕ) (s : KeyCrowd α) : KeyCrowd α :=
  ⟨s.shared.drop ((s.calls.get i).bind InsertAt.held), s.calls.remove i⟩

/-- A step of call `i` that leaves it early: without the call nothing happens. -/
theorem without_own (hs : Steady s.shared s.calls) (h : s.step (.go i) = .ok (o, s'))
    (hd : s'.calls.get i = some d) (he : early d = true) :
    (∃ c, s.calls.get i = some c ∧ early c = true) ∧ without i s' = without i s := by
  obtain ⟨A, B, c, hp, hi, hc, -, hsh, hcalls⟩ := hs.go_cases h
  cases hx : (s.shared.act c).2.1 with
  | none =>
    rw [hx] at hcalls
    simp [hcalls, Pool.get_none hi] at hd
  | some d' =>
    replace hcalls : s'.calls = A ++ (i, d') :: B := by rw [hcalls, hx]; simp
    have hd' : s'.calls.get i = some d' := by rw [hcalls, Pool.get_middle hi]
    obtain rfl : d = d' := Option.some.inj (hd.symm.trans hd')
    obtain ⟨hce, heq⟩ := act_early hx he
    refine ⟨⟨c, hc, hce⟩, ?_⟩
    rw [without, without, hd, hc, hsh, hcalls, hp, Pool.remove_middle hi, Pool.remove_middle hi]
    simp [heq]

/-- A step of the others: it happens without call `i` as well. -/
theorem without_other (hg : s.Gentle e) (h : s.step e = .ok (o, s')) (hi : e.call ≠ some i) :
    s'.calls.get i = s.calls.get i ∧ (without i s).Gentle e ∧
      (without i s).step e = .ok (o, without i s') := by
  have hsub : ∀ x ∈ s.calls.remove i, x ∈ s.calls := fun x hx => (List.mem_filter.mp hx).1
  cases e with
  | enter j key value =>
    have hji : j ≠ i := fun h => hi (by rw [h]; rfl)
    obtain ⟨⟨hj, hk⟩, -⟩ := hg
    have hg' : (without i s).Gentle (.enter j key value) :=
      ⟨⟨fun hc => hj ((List.filter_sublist.map Prod.fst).mem hc), hk⟩, fun hc => (by cases hc)⟩
    simp only [KeyCrowd.step] at h
    split at h <;> rename_i ht <;> cases h
    · exact ⟨rfl, hg', by simp [KeyCrowd.step, without, ht]⟩
    · refine ⟨by simp [Pool.add, Pool.get, hji], hg', ?_⟩
      simp [KeyCrowd.step, without, ht, Pool.add, Pool.get, Pool.remove, hji]
  | go j =>
    have hji : j ≠ i := fun h => hi (by rw [h]; rfl)
    have hg' : (without i s).Gentle (.go j) := by
      refine ⟨fun key value hc x hx => hg.1 key value ?_ x (hsub x hx), fun hc => (by cases hc)⟩
      rwa [without, Pool.get_remove_ne hji] at hc
    simp only [KeyCrowd.step, Busy.go] at h
    cases hc : s.calls.get j with
    | none => rw [hc] at h; cases h
    | some c =>
      rw [hc] at h
      cases h
      have hget := Pool.get_after_ne hji.symm s.calls (s.shared.act c).2.1
      refine ⟨hget, hg', ?_⟩
      have hk : ∀ key value, c = .entered key value → (s.calls.get i).bind InsertAt.held ≠
          some key := by
        rintro key value rfl hh
        obtain ⟨d, hd, hdk⟩ := Option.bind_eq_some_iff.mp hh
        exact hg.1 key value hc _ (Pool.mem_of_get hd) hdk
      simp only [KeyCrowd.step, Busy.go, without, Pool.get_remove_ne hji, hc, ok_bind,
        act_drop _ hk, pure_eq_ok, Pool.after_remove hji, hget]
  | splice =>
    have hg' : (without i s).Gentle .splice :=
      ⟨by simpa [CrowdStep.Enabled, without] using hg.1, fun _ x hx => hg.2 rfl x (hsub x hx)⟩
    simp only [KeyCrowd.step] at h
    split at h <;> rename_i hF <;> cases h
    refine ⟨rfl, hg', ?_⟩
    simp only [KeyCrowd.step, without, frozen_drop, hF, if_true, pure_eq_ok, main_drop]
    cases (s.calls.get i).bind InsertAt.held <;> rfl
  | rest =>
    have hg' : (without i s).Gentle .rest :=
      ⟨by simpa [CrowdStep.Enabled, without] using hg.1, fun hc => (by cases hc)⟩
    cases h
    refine ⟨rfl, hg', ?_⟩
    simp only [KeyCrowd.step, without, pure_eq_ok]
    cases (s.calls.get i).bind InsertAt.held <;> rfl
  | deconstruct =>
    have hg' : (without i s).Gentle .deconstruct :=
      ⟨by simpa [CrowdStep.Enabled, without] using hg.1, fun hc => (by cases hc)⟩
    simp only [KeyCrowd.step] at h
    split at h <;> rename_i hF <;> cases h <;> refine ⟨rfl, hg', ?_⟩
    · simp [KeyCrowd.step, without, hF]
    · cases hk : (s.calls.get i).bind InsertAt.held <;> simp [KeyCrowd.step, without, hk, drop, hF]

/-! ### Whole runs -/

theorem Steady.run {H : List (CrowdStep α × Outcome)} (hs : Steady s.shared s.calls)
    (hrun : Run KeyCrowd.step KeyCrowd.Gentle s H s') : Steady s'.shared s'.calls :=
  Run.invariant (fun s => Steady s.shared s.calls) hs hrun fun _ _ _ _ h hg _ he => h.step hg he

/-- While call `i` stays early, its steps can be left out. -/
theorem without_run {H : List (CrowdStep α × Outcome)} (hs : Steady s.shared s.calls)
    (hrun : Run KeyCrowd.step KeyCrowd.Gentle s H s')
    (hno : ∀ x ∈ H, ∀ key value, x.1 ≠ .enter i key value) (hd : s'.calls.get i = some d)
    (he : early d = true) :
    Run KeyCrowd.step KeyCrowd.Gentle (without i s) (H.filter (·.1.call ≠ some i))
    (without i s') := by
  induction hrun generalizing d with
  | nil => exact .nil
  | snoc h1 hP hst ih =>
    rename_i H s₁ s₂ e o
    have hs₁ := hs.run h1
    have hno₁ : ∀ x ∈ H, ∀ key value, x.1 ≠ .enter i key value := fun x hx => hno x (by simp [hx])
    by_cases hi : e.call = some i
    · -- its own step, which is not the first one
      rw [List.filter_append, List.filter_cons_of_neg (by simpa using hi), List.filter_nil,
        List.append_nil]
      cases e with
      | enter j key value =>
        cases hi
        exact (hno (.enter i key value, o) (by simp) key value rfl).elim
      | go j =>
        cases hi
        obtain ⟨⟨c, hc, hce⟩, heq⟩ := without_own hs₁ hst hd he
        rw [heq]
        exact ih hno₁ hc hce
      | splice => cases hi
      | rest => cases hi
      | deconstruct => cases hi
    · obtain ⟨hget, hg, hstep⟩ := without_other hP hst hi
      rw [List.filter_append, List.filter_cons_of_pos (by simpa using hi), List.filter_nil]
      exact .snoc (ih hno₁ (hget ▸ hd) he) hg hstep

/-- A call that is refused in the locked section can be left out of the run altogether. -/
theorem refused_run {H₁ H₂ : List (CrowdStep α × Outcome)} {key : ℕ} {value : Option α}
    (hs : Steady s.shared s.calls) (hrun : Run KeyCrowd.step KeyCrowd.Gentle s
      (H₁ ++ (.enter i key value, .running) :: (H₂ ++ [(.go i, .refused)])) s')
    (hno : ∀ x ∈ H₂, ∀ key value, x.1 ≠ .enter i key value) :
    Run KeyCrowd.step KeyCrowd.Gentle s (H₁ ++ H₂.filter (·.1.call ≠ some i)) s' := by
  obtain ⟨s₁, hrun₁, hrest⟩ := hrun.split
  rw [← List.singleton_append] at hrest
  obtain ⟨s₂, hrun₂, hrest⟩ := hrest.split
  obtain ⟨s₃, hrun₃, hlast⟩ := hrest.split
  obtain ⟨hg₁, henter⟩ := hrun₂.single
  obtain ⟨hg₃, hrefused⟩ := hlast.single
  have hs₁ := hs.run hrun₁
  have hs₂ := hs₁.step hg₁ henter
  have hs₃ := hs₂.run hrun₃
  -- the call comes in
  have h2 : without i s₂ = s₁ := by
    simp only [KeyCrowd.step] at henter
    split at henter <;> cases henter
    have hi : i ∉ s₁.calls.map Prod.fst := hg₁.1.1
    rw [without]
    change Busy.mk _ (Pool.remove ([] ++ (i, InsertAt.entered key value) :: s₁.calls) i) = s₁
    rw [Pool.remove_middle hi]
    simp [Pool.add, Pool.get, InsertAt.held, InsertAt.entry, drop]
  -- it is refused before it has evicted anything
  obtain ⟨A, B, c, hp, hi, hc, ho, hsh, hcalls⟩ := hs₃.go_cases hrefused
  obtain ⟨k, n, done, rfl, ht, hact⟩ := act_refused ho.symm
  have hdone : done = false := (hs₃.tier ht).2 _ (Pool.mem_of_get hc)
  subst hdone
  have h3 : without i s₃ = s' := by
    rw [hact] at hsh hcalls
    obtain ⟨a', p'⟩ := s'
    simp only at hsh hcalls
    rw [hsh, hcalls, without, hc, hp, Pool.remove_middle hi]
    simp
  have := without_run hs₂ hrun₃ hno hc rfl
  rw [h2, h3] at this
  exact hrun₁.append this

end FrozenHot.Tally
