import PhpSpx.Metric.Values

/-!
# Functions, statistics and events of the profiler interface

The data of `spx_profiler.h` that passes between the engine hooks, the
profilers and the reporters, and the reasons for which the process is made to
die.
-/

namespace PhpSpx

/-- `spx_php_function_t`.  Its `hash_code` is computed from the two names
(`PhpFunction.hashCode`), so it is not stored. -/
structure PhpFunction where
  funcName : String
  className : String
  deriving DecidableEq, Repr, Inhabited

/-- The `hash_code` that `spx_php_current_function` gives a function, for the
engine's string hash `zendInlineHashFunc`. -/
def PhpFunction.hashCode (zendInlineHashFunc : String → UInt64) (f : PhpFunction) : UInt64 :=
  zendInlineHashFunc f.funcName ^^^ zendInlineHashFunc f.className

/-- `spx_profiler_func_stats_t`. -/
structure FuncStats where
  called : ℕ
  maxCycleDepth : ℕ
  inc : MetricValues
  exc : MetricValues
  deriving DecidableEq

/-- The statistics of a function recorded for the first time. -/
def FuncStats.zero : FuncStats where
  called := 0
  maxCycleDepth := 0
  inc := metricValuesZero
  exc := metricValuesZero

@[ext] theorem FuncStats.ext' {a b : FuncStats} (hc : a.called = b.called)
    (hm : a.maxCycleDepth = b.maxCycleDepth) (hi : a.inc = b.inc) (he : a.exc = b.exc) : a = b := by
  cases a
  cases b
  simp_all

/-- `spx_profiler_func_table_entry_t`. -/
structure FuncTableEntry where
  idx : ℕ
  function : PhpFunction
  stats : FuncStats
  deriving DecidableEq

/-- `spx_profiler_event_type_t`. -/
inductive EventType where
  | callStart
  | callEnd
  | finalize
  deriving DecidableEq, Repr

/-- The function table as an event shows it. -/
structure EventFuncTable where
  size : ℕ
  capacity : ℕ
  entries : List FuncTableEntry
  deriving DecidableEq

/-- `spx_profiler_event_t`, with what its pointers point to at the time of the
notification.  `caller` and `callee` are indices into the function table. -/
structure Event where
  type : EventType
  enabledMetrics : Metric → Bool
  called : ℕ
  max : MetricValues
  cum : MetricValues
  funcTable : EventFuncTable
  depth : ℕ
  caller : Option ℕ
  callee : Option ℕ
  inc : Option MetricValues
  exc : Option MetricValues
  deriving DecidableEq

/-- `spx_profiler_reporter_cost_t`: what a reporter answers to a notification. -/
inductive ReporterCost where
  | light
  | heavy
  deriving DecidableEq, Repr

/-- The calls of `spx_utils_die` in the profiling path. -/
inductive Die where
  | callStackCapacityExceeded
  | failedToPush
  | failedToPop
  | rewindBelowZeroDepth
  | samplerStackCapacityExceeded
  deriving DecidableEq, Repr

/-- The message the process dies with. -/
def Die.message : Die → String
  | .callStackCapacityExceeded => "Call stack capacity exceeded"
  | .failedToPush => "Failed to push to call stack"
  | .failedToPop => "Failed to pop from call stack"
  | .rewindBelowZeroDepth => "Cannot rewind below 0 depth"
  | .samplerStackCapacityExceeded => "STACK_CAPACITY exceeded"

end PhpSpx
