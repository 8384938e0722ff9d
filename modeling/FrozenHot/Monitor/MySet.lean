import FrozenHot.Schemes.Run
import Mathlib.Algebra.BigOperators.Group.List.Basic
import Mathlib.Algebra.GroupWithZero.Nat
import Mathlib.Data.Nat.Cast.Defs

/-! `MySet` (`util.h`): the latencies that the controller reads step by step.

    A step goes from where the last one ended to the samples there are now. `GetStepSize` asks for
    the length of the step that could be taken, and `PrintStepLat` takes it. The samples are of any
    type with the arithmetic of a `double`, of which no law is used. -/

namespace FrozenHot
open Schemes

/-- The samples `data_[0]`, .., `data_[size_ - 1]`, and the start of the next step. -/
structure MySet (D : Type) where
  data_ : List D
  cursor : ℕ

namespace MySet

/-- What a step prints: where it starts and ends, the number of its samples, their sum and
    average. -/
structure Report (D : Type) where
  first : ℕ
  size : ℕ
  step : ℕ
  sum : D
  avg : D

inductive Call (D : Type) where
  | insert (value : D)
  | size_from_last_end
  | print_from_last_end

inductive Reply (D : Type) where
  | inserted
  | size (n : ℕ)
  | printed (r : Option (Report D))

variable {D : Type}

def init : MySet D := ⟨[], 0⟩

def max_size : ℕ := 2 ^ 30

def insert (s : MySet D) (value : D) : Except Fault (MySet D) :=
  if s.data_.length < max_size then .ok { s with data_ := s.data_ ++ [value] } else
    .error .assertion

def size_from_last_end (s : MySet D) : ℕ :=
  if s.data_.length = 0 ∨ s.cursor ≥ s.data_.length then 0 else s.data_.length - s.cursor

/-- `std::accumulate` from zero. -/
def accumulate [Zero D] [Add D] (l : List D) : D := l.foldl (· + ·) 0

section
variable [Zero D] [One D] [Add D] [Mul D] [Div D] [NatCast D]

def print_from_last_end (s : MySet D) : Option (Report D) × MySet D :=
  if s.data_.length = 0 ∨ s.cursor ≥ s.data_.length then (none, s)
  else
    let sum := accumulate (s.data_.drop s.cursor)
    let step := s.data_.length - s.cursor
    (some ⟨s.cursor, s.data_.length, step, sum, sum * 1 / (step : D)⟩,
      { s with cursor := s.data_.length + 1 })

def step (s : MySet D) : Call D → Except Fault (Reply D × MySet D)
  | .insert value => (s.insert value).map fun s => (.inserted, s)
  | .size_from_last_end => .ok (.size s.size_from_last_end, s)
  | .print_from_last_end => .ok (.printed s.print_from_last_end.1, s.print_from_last_end.2)

end

/-! ### The history of the calls -/

variable {s s' : MySet D} {H : List (Call D × Reply D)} {a : Reply D} {v : D}

/-- The samples that were inserted. -/
def samples (H : List (Call D × Reply D)) : List D :=
  H.filterMap fun | (.insert v, _) => some v | _ => none

/-- The steps that were printed. -/
def reports (H : List (Call D × Reply D)) : List (Report D) :=
  H.filterMap fun | (_, .printed r) => r | _ => none

/-- The numbers of samples inserted so far, and inserted before the last `print_from_last_end`. -/
def tally : ℕ × ℕ → Call D × Reply D → ℕ × ℕ
  | (n, m), (.insert _, _) => (n + 1, m)
  | (n, _), (.print_from_last_end, _) => (n, n)
  | (n, m), (.size_from_last_end, _) => (n, m)

def settled (H : List (Call D × Reply D)) : ℕ := (H.foldl tally (0, 0)).2

/-- The steps partition the samples inserted before the last of them was asked for: each step counts
    and sums the samples from its start to its end, every sample is in one step, and the counts add
    up. -/
structure Partitioned [Zero D] [Add D] (H : List (Call D × Reply D)) : Prop where
  exact : ∀ r ∈ reports H, r.step = r.size - r.first ∧
    r.sum = accumulate (((samples H).take r.size).drop r.first)
  once : ∀ i < settled H, (reports H).countP (fun r => r.first ≤ i ∧ i < r.size) = 1
  total : ((reports H).map Report.step).sum = settled H

/-- No sample would be lost by a step now: none was taken yet, or there is nothing new. -/
def Lossless (s : MySet D) : Prop := s.cursor = 0 ∨ s.data_.length < s.cursor

instance (s : MySet D) : Decidable s.Lossless := inferInstanceAs (Decidable (_ ∨ _))

/-- Steps are taken where no sample is lost. -/
def Careful (s : MySet D) : Call D → Prop
  | .print_from_last_end => s.Lossless
  | _ => True

variable [Zero D] [Add D]

/-- What the history of a careful run tells: no step was taken, or one, of all samples up to
    then. -/
structure Told (H : List (Call D × Reply D)) (s : MySet D) : Prop where
  data : s.data_ = samples H
  tally : (H.foldl tally (0, 0)).1 = s.data_.length
  steps : (reports H = [] ∧ s.cursor = 0 ∧ settled H = 0) ∨
    ∃ r, reports H = [r] ∧ r.first = 0 ∧ r.size = settled H ∧ r.step = settled H ∧
      r.sum = accumulate (s.data_.take (settled H)) ∧ s.cursor = settled H + 1 ∧
        settled H ≤ s.data_.length

theorem Told.partitioned (ht : Told H s) : Partitioned H := by
  rcases ht.steps with ⟨hr, -, hz⟩ | ⟨r, hr, hf, hs, hstep, hsum, -, -⟩
  · refine ⟨by simp [hr], by simp [hz], by simp [hr, hz]⟩
  · refine ⟨fun r' hr' => ?_, fun i hi => ?_, by simp [hr, hstep]⟩
    · obtain rfl : r' = r := by simpa [hr] using hr'
      rw [hstep, hs, hf, hsum, ht.data]
      exact ⟨rfl, by rw [List.drop_zero]⟩
    · simp [hr, hf, hs, hi]

theorem Told.insert (ht : Told H s) (v : D) :
    Told (H ++ [(.insert v, .inserted)]) { s with data_ := s.data_ ++ [v] } := by
  have hset : settled (H ++ [(.insert v, .inserted)]) = settled H := by
    rw [settled, List.foldl_append]
    rfl
  have hrep : reports (H ++ [(.insert v, .inserted)]) = reports H := by simp [reports]
  refine ⟨by simp [samples, ht.data], by simp [MySet.tally, ht.tally], ?_⟩
  rw [hset, hrep]
  rcases ht.steps with h | ⟨r, hr, hf, hs, hstep, hsum, hcur, hle⟩
  · exact Or.inl h
  · refine Or.inr ⟨r, hr, hf, hs, hstep, ?_, hcur, ?_⟩
    · rw [hsum, List.take_append_of_le_length hle]
    · rw [List.length_append]
      exact hle.trans (Nat.le_add_right _ _)

theorem Told.size (ht : Told H s) (n : ℕ) : Told (H ++ [(.size_from_last_end, .size n)]) s := by
  have hset : settled (H ++ [(.size_from_last_end, .size n)]) = settled H := by
    rw [settled, List.foldl_append]
    rfl
  have hrep : reports (H ++ [(.size_from_last_end, .size n)]) = reports H := by simp [reports]
  refine ⟨by simp [samples, ht.data], by simp [MySet.tally, ht.tally], ?_⟩
  rw [hset, hrep]
  exact ht.steps

theorem Told.settled_print (ht : Told H s) (r : Option (Report D)) :
    settled (H ++ [(.print_from_last_end, .printed r)]) = s.data_.length := by
  rw [settled, List.foldl_append, ← ht.tally]
  rfl

omit [Zero D] [Add D] in
theorem reports_print (r : Option (Report D)) :
    reports (H ++ [(.print_from_last_end, .printed r)]) = reports H ++ r.toList := by
  cases r <;> simp [reports]

variable [One D] [Mul D] [Div D] [NatCast D]

/-- A step where no sample is lost. -/
theorem Told.print (ht : Told H s) (hl : s.Lossless) :
    Told (H ++ [(.print_from_last_end, .printed s.print_from_last_end.1)])
    s.print_from_last_end.2 := by
  have hset := ht.settled_print s.print_from_last_end.1
  have hrep := reports_print (H := H) s.print_from_last_end.1
  have hdata : s.print_from_last_end.2.data_ = s.data_ := by
    unfold print_from_last_end
    split_ifs <;> rfl
  refine ⟨by simp [samples, hdata, ht.data], by rw [hdata, List.foldl_append, ← ht.tally]; rfl, ?_⟩
  rw [hset, hrep, hdata]
  by_cases hnone : s.data_.length = 0 ∨ s.cursor ≥ s.data_.length
  · -- nothing to print: then nothing was inserted since the last step
    have hp : s.print_from_last_end = (none, s) := if_pos hnone
    rw [hp, Option.toList_none, List.append_nil]
    rcases ht.steps with ⟨hr, hcur, -⟩ | ⟨r, hr, hf, hs, hstep, hsum, hcur, hle⟩
    · exact Or.inl ⟨hr, hcur, by omega⟩
    · have heq : settled H = s.data_.length := by
        rcases hl with hl | hl <;> omega
      rw [heq] at hs hstep hsum hcur hle
      exact Or.inr ⟨r, hr, hf, hs, hstep, hsum, hcur, hle⟩
  · have hcur : s.cursor = 0 := by
      rcases hl with hl | hl
      · exact hl
      · omega
    obtain ⟨hr, -⟩ : reports H = [] ∧ s.cursor = 0 := by
      rcases ht.steps with ⟨hr, hcur, -⟩ | ⟨r, -, -, -, -, -, hc, -⟩
      · exact ⟨hr, hcur⟩
      · omega
    have hp : s.print_from_last_end = (some ⟨s.cursor, s.data_.length, s.data_.length - s.cursor,
        accumulate (s.data_.drop s.cursor), _⟩, { s with cursor := s.data_.length + 1 }) :=
        if_neg hnone
    rw [hp, hr]
    exact Or.inr ⟨_, rfl, hcur, rfl, by simp [hcur], by simp [hcur], rfl, le_refl _⟩

/-- A step that loses a sample leaves the samples unpartitioned. -/
theorem Told.print_loses (ht : Told H s) (hl : ¬ s.Lossless) :
    ¬ Partitioned (H ++ [(.print_from_last_end, .printed s.print_from_last_end.1)]) := by
  intro hp
  have htotal := hp.total
  rw [ht.settled_print, reports_print] at htotal
  rw [Lossless, not_or, not_lt] at hl
  rcases ht.steps with ⟨-, hcur, -⟩ | ⟨r, hr, -, -, hstep, -, hcur, hle⟩
  · exact hl.1 hcur
  · unfold print_from_last_end at htotal
    split_ifs at htotal with h
    · simp [hr, hstep] at htotal
      omega
    · simp [hr, hstep] at htotal
      omega

theorem Told.run (hrun : Run step Careful init H s) : Told H s := by
  induction hrun with
  | nil => exact ⟨rfl, rfl, Or.inl ⟨rfl, rfl, rfl⟩⟩
  | @snoc H s₁ s₂ c a _ hc hstep ih =>
    cases c with
    | insert v =>
      by_cases hlt : s₁.data_.length < max_size
      · rw [step, MySet.insert, if_pos hlt] at hstep
        cases hstep
        exact ih.insert v
      · rw [step, MySet.insert, if_neg hlt] at hstep
        cases hstep
    | size_from_last_end =>
      cases hstep
      exact ih.size _
    | print_from_last_end =>
      cases hstep
      exact ih.print hc

/-- In every run whose steps are taken where no sample is lost, the steps partition the samples; the
    next step keeps that exactly if it is taken where none is lost; and `size_from_last_end` is
    always the number of samples that the next step reports. -/
theorem steps_partition_iff (hrun : Run step Careful init H s) :
    Partitioned H ∧
    (∀ a s', s.step .print_from_last_end = .ok (a, s') →
      (Partitioned (H ++ [(.print_from_last_end, a)]) ↔ s.Lossless)) ∧
    s.size_from_last_end = (s.print_from_last_end.1.map Report.step).getD 0 := by
  have ht := Told.run hrun
  refine ⟨ht.partitioned, fun a s' h => ?_, ?_⟩
  · cases h
    constructor
    · intro hp
      by_contra hl
      exact ht.print_loses hl hp
    · exact fun hl => (ht.print hl).partitioned
  · unfold size_from_last_end print_from_last_end
    split_ifs <;> rfl

/-- Two samples and one step. -/
theorem steps_partition_two : ∃ r : Report ℕ,
    Partitioned [(.insert 4, .inserted), (.insert 6, .inserted),
      (.print_from_last_end, .printed (some r))] ∧
    r.step = 2 ∧ r.sum = 10 := by
  have hrun : Run step Careful (init : MySet ℕ)
      [(.insert 4, .inserted), (.insert 6, .inserted),
          (.print_from_last_end, .printed (some ⟨0, 2, 2, 10, 5⟩))] _ :=
    .cons trivial rfl (.cons trivial rfl (.cons (Or.inl rfl) rfl .nil))
  exact ⟨_, (steps_partition_iff hrun).1, rfl, rfl⟩

/-- The sample inserted right after a step is in no step: neither in the one asked for at once nor
    in the one after another sample. -/
theorem sample_after_step_lost : ∃ s : MySet ℕ, ∃ H,
    Run step (fun _ _ => True) init H s ∧ samples H = [4, 6, 8] ∧
    (reports H).map (fun r => (r.first, r.size, r.sum)) = [(0, 1, 4), (2, 3, 8)] ∧ settled H = 3 :=
  ⟨_, [(.insert 4, .inserted), (.print_from_last_end, .printed (some ⟨0, 1, 1, 4, 4⟩)),
      (.insert 6, .inserted), (.print_from_last_end, .printed none), (.insert 8, .inserted),
      (.print_from_last_end, .printed (some ⟨2, 3, 1, 8, 8⟩))],
    .cons trivial rfl (.cons trivial rfl (.cons trivial rfl (.cons trivial rfl (.cons trivial rfl
      (.cons trivial rfl .nil))))), rfl, rfl, rfl⟩

end MySet
end FrozenHot
