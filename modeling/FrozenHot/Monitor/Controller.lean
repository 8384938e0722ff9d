import FrozenHot.Freeze.LFUCurve
import FrozenHot.Schemes.Run
import Mathlib.Data.Finset.Union
import Mathlib.Algebra.Order.Field.Rat

/-! `FastHashMonitor` (`hhvm-scalable-cache.h`), the thread that decides when the shards are frozen
    and thawed.

    A step goes from one read of `should_stop` to the next, since nothing else that the thread does
    depends on the moment at which the flag is raised. What it measures comes from outside:
    latencies of any type with the arithmetic of a `double`, of which no law is used, and sizes of a
    frozen part of any type in which the numbers are in order besides. A shard is frozen or thawed.

    WAIT_STABLE ▶ observe ▶ search ▶ baseline ▶ choice ▶ CONSTRUCT ▶ settle ▶ pass ▶ constructed
         ▲                                         │         ▲                            │
         ├────────── dozed ◀──── doze ◀────────────┘         │                            ▼
         └─ last ◀── rest ◀── DECONSTRUCT ◀──────────────────┴───────────── sample ◀──▶ frozen -/

namespace FrozenHot
open Schemes

/-- `double_is_equal`; `abs` is the larger one of a number and its negative. -/
def double_is_equal {S : Type} [Sub S] [Neg S] [OfScientific S] [LinearOrder S] (left right : S) :
    Bool :=
  max (left - right) (-(left - right)) < 0.0001

/-- The calls of the controller on a shard that freeze, thaw or profile it. -/
inductive ShardCall (S : Type) where
  | get_curve
  | construct_tier
  | construct_ratio (FC_ratio : S)
  | deconstruct

/-- Such a call, with what it found: whether the shard was frozen, and the length of the curve
    container of shard 0. -/
structure ShardEvent (S : Type) where
  shard : ℕ
  call : ShardCall S
  frozen : Bool
  points : ℕ

/-- Where the controller is. -/
inductive Pc where
  | WAIT_STABLE | observe | search | baseline | choice | doze (i : ℕ) | dozed
  | CONSTRUCT | settle | pass | constructed | frozen | sample
  | DECONSTRUCT | rest (i : ℕ) | last | done
  deriving DecidableEq

/-- The shards as the controller leaves them, its queue and its variables. -/
structure FastHashMonitor (S D : Type) where
  pc : Pc
  should_stop : Bool
  frozen : Finset ℕ
  curve_container : List (CurvePoint S D)
  calls : List (ShardEvent S)
  construct_container : List ℕ
  fail_list : Finset ℕ
  SLEEP_THRESHOLD : ℕ
  last_miss_ratio : D
  last_size : ℕ
  size : ℕ
  wait_count : ℕ
  container : List (CurvePoint S D)
  best_size : S
  baseline_performance_with_threshold : D
  baseline_metrics : ℕ → D
  construct_step : ℕ
  pass_count : ℕ
  performance_depletion : D
  first_flag : Bool
  baseline_step : ℕ
  total_step : ℕ
  current_step : ℕ

/-- The number of shards, for each of which there is a place in `req_latency_[16]` (and in the
    longer `baseline_metrics[80]`), and after how many construction steps a frozen phase is
    refreshed. -/
structure MonitorConfig where
  m_numShards : ℕ
  FROZEN_THRESHOLD : ℕ
  numShards_le : m_numShards ≤ 16

/-- What is measured in a step: `PrintMissRatio`, `Size`, the points that `get_curve` adds, the
    length of the step that could be taken, the latencies and the length of the step that
    `PrintStepLat` takes, and for each shard the figure of `print_tail`, first in the pass and then
    again after a reset. -/
structure Reading (S D : Type) where
  miss_ratio : D
  size : ℕ
  points : List (CurvePoint S D)
  pending : ℕ
  DC_hit_lat : D
  miss_lat : D
  FC_lat : D
  Frozen_Avg : D
  performance : D
  steps : ℕ
  tail : ℕ → D
  updated : ℕ → D

/-- `monitor_stop` by another thread, or a step of the controller. -/
inductive Signal (S D : Type) where
  | stop
  | go (r : Reading S D)

namespace FastHashMonitor
variable {S D : Type}

/-! ### The calls on the shards -/

def note (σ : FastHashMonitor S D) (i : ℕ) (c : ShardCall S) : FastHashMonitor S D :=
  { σ with calls := σ.calls ++ [⟨i, c, i ∈ σ.frozen, σ.curve_container.length⟩] }

def get_curve (σ : FastHashMonitor S D) (points : List (CurvePoint S D)) :
    Except Fault (FastHashMonitor S D) := do
  assert (σ.curve_container.length = 0)
  return { σ.note 0 .get_curve with curve_container := points }

def construct_tier (σ : FastHashMonitor S D) (i : ℕ) : FastHashMonitor S D :=
  { σ.note i .construct_tier with frozen := insert i σ.frozen }

def construct_ratio (σ : FastHashMonitor S D) (i : ℕ) : FastHashMonitor S D :=
  { σ.note i (.construct_ratio σ.best_size) with frozen := insert i σ.frozen }

def deconstruct (σ : FastHashMonitor S D) (i : ℕ) : FastHashMonitor S D :=
  { σ.note i .deconstruct with frozen := σ.frozen.erase i }

/-- `for (i = 0; i < m_numShards; i++) m_shards[i]->deconstruct();`. -/
def deconstructAll (c : MonitorConfig) (σ : FastHashMonitor S D) : FastHashMonitor S D :=
  (List.range c.m_numShards).foldl deconstruct σ

/-! ### The queue -/

/-- `construct_container.front()`. -/
def front : List ℕ → Except Fault ℕ
  | [] => throw .deref
  | i :: _ => return i

/-- Go once through the queue: each id leaves it at the front and enters it again. -/
def turn : ℕ → List ℕ → Except Fault (List ℕ)
  | 0, q => return q
  | k + 1, q => do
    let shard_id ← front q
    turn k (q.tail ++ [shard_id])

section
variable [One S] [Sub S] [Neg S] [OfScientific S] [LinearOrder S]

/-- The loop of a pass that freezes the shards in the queue. -/
def freezeLoop : ℕ → FastHashMonitor S D → Except Fault (FastHashMonitor S D)
  | 0, σ => return σ
  | k + 1, σ => do
    let shard_id ← front σ.construct_container
    let σ :=
      if double_is_equal σ.best_size 1 then σ.construct_tier shard_id else
        σ.construct_ratio shard_id
    freezeLoop k { σ with construct_container := σ.construct_container.tail ++ [shard_id] }

variable [Zero S] [Zero D] [One D] [Add D] [Sub D] [Mul D] [Div D] [NatCast D] [OfScientific D]
variable [LT D] [LE D] [DecidableLT D] [DecidableLE D]

def WAIT_STABLE_THRESHOLD : ℕ := 2

def PASS_THRESHOLD : ℕ := 3

def COUNT_THRESHOLD : ℕ := 2

/-- The division by `1 + FH_PERFORMANCE_THRESHOLD`. -/
def improved (x : D) : D := x / (1 + 0.2)

/-- The cache as it is constructed; the other variables are set before they are used. -/
def init : FastHashMonitor S D where
  pc := .WAIT_STABLE
  should_stop := false
  frozen := ∅
  curve_container := []
  calls := []
  construct_container := []
  fail_list := ∅
  SLEEP_THRESHOLD := 2
  last_miss_ratio := 0
  last_size := 0
  size := 0
  wait_count := 0
  container := []
  best_size := 0
  baseline_performance_with_threshold := 0
  baseline_metrics := fun _ => 0
  construct_step := 0
  pass_count := 0
  performance_depletion := 0
  first_flag := true
  baseline_step := 0
  total_step := 0
  current_step := 0

/-! ### Observation and search -/

/-- One iteration of the observation: until the cache is full and the miss ratio has not gone down
    twice. -/
def observe (r : Reading S D) (σ : FastHashMonitor S D) : FastHashMonitor S D :=
  if σ.should_stop then { σ with pc := .search }
  else
    let wait_count :=
      if σ.last_size ≥ σ.size ∧ σ.last_miss_ratio ≤ r.miss_ratio then
        σ.wait_count + 1 else σ.wait_count
    if σ.last_size ≥ σ.size ∧ wait_count ≥ WAIT_STABLE_THRESHOLD then
      { σ with wait_count := wait_count, pc := .search }
    else
      { σ with
        wait_count := wait_count, last_size := σ.size, size := r.size, last_miss_ratio :=
          r.miss_ratio }

/-- The latency that a point of the curve predicts, and the size that it stands for; `last` if it is
    the last point. -/
def option (r : Reading S D) (last : Bool) (p : CurvePoint S D) : D × S :=
  let mixed := p.FC_hit_ * r.FC_lat + p.miss_ * (r.miss_lat + r.FC_lat) +
    (1 - p.FC_hit_ - p.miss_) * (r.FC_lat + r.DC_hit_lat)
  if p.size_ < 0.01 then (improved (p.miss_ * r.miss_lat + (1 - p.miss_) * r.DC_hit_lat), 0)
  else if last ∧ p.size_ > 0.65 then (mixed, 1)
  else (mixed, p.size_)

/-- The loop over the curve: `best_avg` and `best_size` from there on. -/
def choose (r : Reading S D) : List (CurvePoint S D) → D × S → D × S
  | [], best => best
  | p :: rest, best =>
    let next := option r rest.isEmpty p
    choose r rest (if next.1 < best.1 then next else best)

/-- The search once the baseline is known: everything is frozen for a measurement, then the best
    size is chosen. -/
def search (c : MonitorConfig) (r : Reading S D) (σ : FastHashMonitor S D) : FastHashMonitor S D :=
  let σ := (List.range c.m_numShards).foldl construct_tier σ
  let σ := deconstructAll c σ
  let best := choose r σ.container ((1000 : ℕ), 0)
  { σ with
    best_size := if best.1 > r.Frozen_Avg then 1 else best.2
    curve_container := []
    pc := .choice }

/-! ### Construction -/

/-- The loop of a pass that thaws the shards again that did not improve. -/
def checkLoop (r : Reading S D) : ℕ → FastHashMonitor S D → Except Fault (FastHashMonitor S D)
  | 0, σ => return σ
  | k + 1, σ => do
    let shard_id ← front σ.construct_container
    let rest := σ.construct_container.tail
    if r.tail shard_id > improved (σ.baseline_metrics shard_id) then
      checkLoop r k { σ.deconstruct shard_id with
        construct_container := rest ++ [shard_id]
        baseline_metrics := Function.update σ.baseline_metrics shard_id (r.updated shard_id) }
    else checkLoop r k { σ with construct_container := rest }

/-- One iteration of the construct loop. -/
def pass (r : Reading S D) (σ : FastHashMonitor S D) : Except Fault (FastHashMonitor S D) := do
  if ¬ σ.should_stop ∧ ¬ σ.construct_container.isEmpty then
    let pass_len := σ.construct_container.length
    let left ← turn pass_len σ.construct_container
    if σ.pass_count ≥ PASS_THRESHOLD then
      return { σ with
        construct_container := []
        fail_list := left.foldl (fun f shard_id => insert shard_id f) σ.fail_list
        pc := .constructed }
    let σ ← freezeLoop pass_len { σ with construct_container := left }
    let reset ← turn pass_len σ.construct_container
    let σ ← checkLoop r pass_len { σ with construct_container := reset }
    return { σ with
      pass_count := σ.pass_count + 1, construct_step := (σ.construct_step + r.steps) % 2 ^ 64 }
  else return { σ with pc := .constructed }

/-! ### The frozen phase -/

/-- Thaw everything and construct again. -/
def refresh (c : MonitorConfig) (σ : FastHashMonitor S D) : FastHashMonitor S D :=
  { deconstructAll c σ with pc := .CONSTRUCT }

/-- The rest of an iteration of the frozen loop, once there is a step to look at. -/
def weigh (c : MonitorConfig) (r : Reading S D) (σ : FastHashMonitor S D) : FastHashMonitor S D :=
  let baseline_step := if σ.first_flag then r.steps else σ.baseline_step
  let baseline := σ.baseline_performance_with_threshold
  let delta := (baseline - r.performance) / baseline * (r.steps : D) / (baseline_step : D)
  let performance_depletion := σ.performance_depletion + delta
  let σ := { σ with
    baseline_step := baseline_step
    first_flag := false
    performance_depletion := performance_depletion }
  if performance_depletion ≤ 0 then
    { σ with SLEEP_THRESHOLD := σ.SLEEP_THRESHOLD * 8 % 2 ^ 64, pc := .DECONSTRUCT }
  else
    let σ := { σ with
      total_step := (σ.total_step + r.steps) % 2 ^ 64
      current_step := (σ.current_step + r.steps) % 2 ^ 64 }
    if σ.total_step > σ.construct_step * c.FROZEN_THRESHOLD % 2 ^ 64 then
      refresh c { σ with
        SLEEP_THRESHOLD := if σ.SLEEP_THRESHOLD ≥ 2 then σ.SLEEP_THRESHOLD / 2 else
          σ.SLEEP_THRESHOLD }
    else if σ.current_step > σ.construct_step then
      if performance_depletion > ((COUNT_THRESHOLD : ℕ) : D) then
        { σ with
          performance_depletion := ((COUNT_THRESHOLD : ℕ) : D), current_step := 0, pc := .frozen }
      else refresh c σ
    else { σ with pc := .frozen }

/-! ### The whole function -/

/-- A step of the controller. -/
def go (c : MonitorConfig) (r : Reading S D) (σ : FastHashMonitor S D) :
    Except Fault (FastHashMonitor S D) := do
  match σ.pc with
  | .WAIT_STABLE =>
    return { σ with
      last_miss_ratio := 1.5, last_size := 0, size := 0, wait_count := 0, pc := .observe }
  | .observe => return observe r σ
  | .search =>
    let σ ← if ¬ σ.should_stop then σ.get_curve r.points else pure σ
    return { σ with container := σ.curve_container, pc := .baseline }
  | .baseline => if r.pending < 5 ∧ ¬ σ.should_stop then return σ else return search c r σ
  | .choice =>
    if ¬ σ.should_stop ∧ σ.best_size < 0.05 then
      return { σ with SLEEP_THRESHOLD := σ.SLEEP_THRESHOLD * 8 % 2 ^ 64, pc := .doze 0 }
    else return { σ with pc := .CONSTRUCT }
  | .doze i =>
    if i < σ.SLEEP_THRESHOLD ∧ ¬ σ.should_stop then return { σ with pc := .doze (i + 1) } else
      return { σ with pc := .dozed }
  | .dozed => return { σ with pc := if σ.should_stop then .CONSTRUCT else .WAIT_STABLE }
  | .CONSTRUCT =>
    assert (σ.construct_container = [])
    return { σ with fail_list := ∅, pc := .settle }
  | .settle =>
    if r.pending < 100 ∧ ¬ σ.should_stop then return σ
    else return { σ with
      baseline_step := 0
      construct_step := r.steps
      baseline_performance_with_threshold := improved r.performance
      construct_container := σ.construct_container ++ List.range c.m_numShards
      baseline_metrics := r.tail
      pass_count := 0
      pc := .pass }
  | .pass => pass r σ
  | .constructed =>
    if ¬ σ.should_stop ∧ σ.fail_list.card = c.m_numShards then return { σ with pc := .WAIT_STABLE }
    else return { σ with
      performance_depletion := ((COUNT_THRESHOLD : ℕ) : D)
      first_flag := true
      total_step := 0
      current_step := 0
      pc := .frozen }
  | .frozen => return { σ with pc := if σ.should_stop then .DECONSTRUCT else .sample }
  | .sample => if r.pending < 50 ∧ ¬ σ.should_stop then return σ else return weigh c r σ
  | .DECONSTRUCT =>
    let σ := deconstructAll c σ
    return { σ with pc := if σ.should_stop then .last else .rest 0 }
  | .rest i =>
    if i < σ.SLEEP_THRESHOLD ∧ ¬ σ.should_stop then return { σ with pc := .rest (i + 1) } else
      return { σ with pc := .last }
  | .last => return { σ with pc := if σ.should_stop then .done else .WAIT_STABLE }
  | .done => return σ

/-- A step of the system. -/
def step (c : MonitorConfig) (σ : FastHashMonitor S D) :
    Signal S D → Except Fault (Unit × FastHashMonitor S D)
  | .stop => return ((), { σ with should_stop := true })
  | .go r => do
    let σ ← go c r σ
    return ((), σ)

end

end FastHashMonitor
end FrozenHot
