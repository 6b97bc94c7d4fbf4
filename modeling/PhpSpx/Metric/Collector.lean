import PhpSpx.Lib.Binary64
import PhpSpx.Metric.Values

/-!
# Raw metric values and the metric collector

`spx_metric.c`, and the metric handlers of `spx_metric_builtin.c`.  A raw
collection asks the handler of each enabled metric for its value; some handlers
ask other handlers.  Both files keep a table of memoized values of their own,
one of each for a thread.

The corrections of a collector are rounded as the arithmetic on doubles is.  The raw
values are not: the conversion of a `size_t` to a double is exact up to `2 ^ 53`.

* `collectRawValues` — a raw collection.
* `MetricCollector` — the corrections between raw and reported values.
* `MetricThread` — the operations of the collectors of a thread.
-/

namespace PhpSpx

open Lib

/-! ## Readings and memoized values -/

/-- What the operating system and the engine answer at one moment.  `other` has
the answers of the handlers that are functions of the engine or of
`spx_resource_stats.h`, clocks and I/O counters apart. -/
structure OsReading where
  wallTime : UInt64
  cpuTime : UInt64
  ioRbytes : UInt64
  ioWbytes : UInt64
  other : Metric → UInt64

/-- An element of a `memoized_metric_values`. -/
structure Memoized where
  memoized : Bool
  value : UInt64
  deriving DecidableEq

/-- The two tables of a thread, `collector` that of `spx_metric.c` and `builtin`
that of `spx_metric_builtin.c`, and how many questions were asked since the raw
collection started. -/
structure MetricTables where
  collector : Metric → Memoized
  builtin : Metric → Memoized
  calls : ℕ

namespace MetricTables

/-- The tables of a new thread. -/
def init : MetricTables where
  collector := fun _ => ⟨false, 0⟩
  builtin := fun _ => ⟨false, 0⟩
  calls := 0

/-- One more question was asked. -/
def asked (t : MetricTables) : MetricTables := { t with calls := t.calls + 1 }

/-- Memoize a value in the table of `spx_metric_builtin.c`. -/
def memoizeBuiltin (t : MetricTables) (metric : Metric) (value : UInt64) : MetricTables :=
  { t with builtin := Function.update t.builtin metric ⟨true, value⟩ }

end MetricTables

/-! ## The built-in handlers -/

/-- A handler: it may ask questions and write the tables.  `none` stands for a
recursion deeper than the model follows. -/
abbrev MetricHandler := MetricTables → Option (UInt64 × MetricTables)

/-- `memoize_io_stats`. -/
def memoizeIoStats (os : ℕ → OsReading) (t : MetricTables) : MetricTables :=
  if (t.builtin .ioRbytes).memoized then t
  else
    (t.asked.memoizeBuiltin .ioRbytes (os t.calls).ioRbytes).memoizeBuiltin .ioWbytes
      (os t.calls).ioWbytes

/-- `memoized_metric_value` of `spx_metric_builtin.c`, for the metric's
registered handler. -/
def builtinMemoizedMetricValue (handler : MetricHandler) (metric : Metric) : MetricHandler :=
  fun t =>
    if (t.builtin metric).memoized then some ((t.builtin metric).value, t)
    else (handler t).map fun r => (r.1, r.2.memoizeBuiltin metric r.1)

/-- The registered handlers.  `depth` bounds the handlers called by handlers.
The operands of the difference and of the sum are read from left to right. -/
def metricHandler (os : ℕ → OsReading) : ℕ → Metric → MetricHandler
  | 0, _ => fun _ => none
  | depth + 1, metric => fun t =>
      match metric with
      | .wallTime => some ((os t.calls).wallTime, t.asked)
      | .cpuTime => some ((os t.calls).cpuTime, t.asked)
      | .idleTime =>
          (builtinMemoizedMetricValue (metricHandler os depth .wallTime) .wallTime t).bind
            fun wall =>
          (builtinMemoizedMetricValue (metricHandler os depth .cpuTime) .cpuTime wall.2).map
            fun cpu => (wall.1 - cpu.1, cpu.2)
      | .ioBytes =>
          (builtinMemoizedMetricValue (metricHandler os depth .ioRbytes) .ioRbytes
            (memoizeIoStats os t)).bind fun r =>
          (builtinMemoizedMetricValue (metricHandler os depth .ioWbytes) .ioWbytes r.2).map
            fun w => (r.1 + w.1, w.2)
      | .ioRbytes =>
          builtinMemoizedMetricValue (metricHandler os depth .ioRbytes) .ioRbytes
            (memoizeIoStats os t)
      | .ioWbytes =>
          builtinMemoizedMetricValue (metricHandler os depth .ioWbytes) .ioWbytes
            (memoizeIoStats os t)
      | metric => some ((os t.calls).other metric, t.asked)

/-! ## Raw collections -/

/-- `memoized_metric_value` of `spx_metric.c`. -/
def memoizedMetricValue (os : ℕ → OsReading) (metric : Metric) : MetricHandler := fun t =>
  if (t.collector metric).memoized then some ((t.collector metric).value, t)
  else
    (metricHandler os 2 metric t).map fun r =>
      (r.1, { r.2 with collector := Function.update r.2.collector metric ⟨true, r.1⟩ })

/-- The first loop of `collect_raw_values`. -/
def resetMemoized (enabledMetrics : Metric → Bool) (t : MetricTables) : MetricTables :=
  { t with
    collector := fun i =>
      if enabledMetrics i then { t.collector i with memoized := false } else t.collector i }

/-- The second loop of `collect_raw_values`, over the metrics left. -/
def collectRawValuesFrom (os : ℕ → OsReading) (enabledMetrics : Metric → Bool) :
    List Metric → MetricValues → MetricTables → Option (MetricValues × MetricTables)
  | [], currentValues, t => some (currentValues, t)
  | i :: metrics, currentValues, t =>
      if enabledMetrics i then
        (memoizedMetricValue os i t).bind fun r =>
          collectRawValuesFrom os enabledMetrics metrics
            (Function.update currentValues i (r.1.toNat : ℚ)) r.2
      else
        collectRawValuesFrom os enabledMetrics metrics (Function.update currentValues i 0) t

/-- `collect_raw_values`, with the answers to the questions it asks. -/
def collectRawValues (os : ℕ → OsReading) (enabledMetrics : Metric → Bool) (t : MetricTables) :
    Option (MetricValues × MetricTables) :=
  collectRawValuesFrom os enabledMetrics Metric.all metricValuesZero
    (resetMemoized enabledMetrics { t with calls := 0 })

/-! ## The collector -/

/-- `spx_metric_collector_t`. -/
structure MetricCollector where
  enabledMetrics : Metric → Bool
  enabledIndices : List Metric
  refValues : MetricValues
  lastValues : MetricValues
  currentFixedNoise : MetricValues

namespace MetricCollector

/-- `spx_metric_collector_create`, for the raw values it collects. -/
def create (enabledMetrics : Metric → Bool) (current : MetricValues) : MetricCollector where
  enabledMetrics := enabledMetrics
  enabledIndices := Metric.all.filter enabledMetrics
  refValues := current
  lastValues := current
  currentFixedNoise := metricValuesZero

/-- `ct_surplus`. -/
def ctSurplus (c : MetricCollector) (current : MetricValues) : ℚ :=
  binary64Sub (binary64Sub (current .cpuTime) (c.lastValues .cpuTime))
    (binary64Sub (current .wallTime) (c.lastValues .wallTime))

/-- The correction of the reference values for a CPU time that outruns the wall
time. -/
def correctedRef (c : MetricCollector) (current : MetricValues) : MetricValues :=
  if c.enabledMetrics .wallTime ∧ c.enabledMetrics .cpuTime then
    if c.ctSurplus current > 0 then
      Function.update
        (Function.update c.refValues .cpuTime
          (binary64Add (c.refValues .cpuTime) (c.ctSurplus current)))
        .idleTime (binary64Sub (c.refValues .idleTime) (c.ctSurplus current))
    else c.refValues
  else c.refValues

/-- The noise taken off a metric, at most its increase unless it is releasable. -/
def clampedNoise (c : MetricCollector) (current : MetricValues) (i : Metric) : ℚ :=
  if i.releasable then c.currentFixedNoise i
  else if c.currentFixedNoise i > binary64Sub (current i) (c.lastValues i) then
    binary64Sub (current i) (c.lastValues i)
  else c.currentFixedNoise i

/-- `spx_metric_collector_collect`, for the raw values it collects.  It writes
the places of the enabled metrics in the array `values`. -/
def collect (c : MetricCollector) (current values : MetricValues) :
    MetricValues × MetricCollector :=
  let ref := fun i =>
    if c.enabledMetrics i then binary64Add (c.correctedRef current i) (c.clampedNoise current i)
    else c.correctedRef current i
  (fun i => if c.enabledMetrics i then binary64Sub (current i) (ref i) else values i,
    { c with
      refValues := ref
      lastValues := fun i => if c.enabledMetrics i then current i else c.lastValues i
      currentFixedNoise := fun i => if c.enabledMetrics i then 0 else c.currentFixedNoise i })

/-- `spx_metric_collector_noise_barrier`, for the raw values it collects. -/
def noiseBarrier (c : MetricCollector) (current : MetricValues) : MetricCollector :=
  { c with
    currentFixedNoise :=
      c.enabledIndices.foldl
        (fun noise idx =>
          Function.update noise idx
            (binary64Add (noise idx) (binary64Sub (current idx) (c.lastValues idx))))
        c.currentFixedNoise }

/-- `spx_metric_collector_add_fixed_noise`. -/
def addFixedNoise (c : MetricCollector) (noise : MetricValues) : MetricCollector :=
  { c with
    currentFixedNoise :=
      c.enabledIndices.foldl
        (fun sum idx => Function.update sum idx (binary64Add (sum idx) (noise idx)))
        c.currentFixedNoise }

end MetricCollector

/-! ## The collectors of a thread -/

/-- An operation on a collector.  The collectors are numbered in the order of
their creation; an operation on one that was not created stands for none. -/
inductive CollectorOp where
  | create (enabledMetrics : Metric → Bool)
  | collect (collector : ℕ)
  | noiseBarrier (collector : ℕ)
  | addFixedNoise (collector : ℕ) (noise : MetricValues)

/-- The enabled metrics of the raw collection an operation makes, given those of
the collectors. -/
def CollectorOp.rawMetrics? (known : List (Metric → Bool)) : CollectorOp → Option (Metric → Bool)
  | .create enabledMetrics => some enabledMetrics
  | .collect collector => known[collector]?
  | .noiseBarrier collector => known[collector]?
  | .addFixedNoise _ _ => none

/-- What an operation does to the collectors, with the raw values it collects. -/
def CollectorOp.apply (collectors : List MetricCollector) (current : MetricValues) :
    CollectorOp → List MetricCollector
  | .create enabledMetrics => collectors ++ [.create enabledMetrics current]
  | .collect collector => collectors.modify collector fun c => (c.collect current 0).2
  | .noiseBarrier collector => collectors.modify collector fun c => c.noiseBarrier current
  | .addFixedNoise collector noise => collectors.modify collector fun c => c.addFixedNoise noise

/-- A raw collection: for which metrics, the answers it was given, how many of
them it asked for, and its values. -/
structure RawCollection where
  enabledMetrics : Metric → Bool
  readings : ℕ → OsReading
  calls : ℕ
  values : MetricValues

/-- A thread: its tables and its collectors. -/
structure MetricThread where
  tables : MetricTables
  collectors : List MetricCollector

namespace MetricThread

/-- A new thread. -/
def init : MetricThread := ⟨.init, []⟩

/-- One operation, with the answers to the questions it asks. -/
def step (os : ℕ → OsReading) (op : CollectorOp) (thread : MetricThread) :
    Option (List RawCollection × MetricThread) :=
  match op.rawMetrics? (thread.collectors.map MetricCollector.enabledMetrics) with
  | none => some ([], { thread with collectors := op.apply thread.collectors 0 })
  | some enabledMetrics =>
      (collectRawValues os enabledMetrics thread.tables).map fun r =>
        ([⟨enabledMetrics, os, r.2.calls, r.1⟩], ⟨r.2, op.apply thread.collectors r.1⟩)

/-- A sequence of operations: the raw collections made and the final state. -/
def run : (ℕ → ℕ → OsReading) → List CollectorOp → MetricThread →
    Option (List RawCollection × MetricThread)
  | _, [], thread => some ([], thread)
  | os, op :: ops, thread =>
      (step (os 0) op thread).bind fun r =>
        (run (fun k => os (k + 1)) ops r.2).map fun r' => (r.1 ++ r'.1, r'.2)

end MetricThread

end PhpSpx
