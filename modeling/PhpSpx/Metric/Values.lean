import Mathlib
import PhpSpx.Lib.Binary64

/-!
# Metrics and vectors of metric values

The metric enumeration of `spx_metric.h`, the part of the table of
`spx_metric_builtin.c` the profiler itself reads, and the element-wise
operations of `spx_metric_values.h`.

A C `double` is read as the rational number it denotes, and these operations as exact
arithmetic.  The values are whole numbers, so this is what the code computes as long as
none of them exceeds `2 ^ 53` (`binary64Add_eq_metricValuesAdd`); results over these
operations are about values in this range.
-/

namespace PhpSpx

/-- `spx_metric_t`, in the order of the enumeration. -/
inductive Metric where
  | wallTime
  | cpuTime
  | idleTime
  | zeMemoryUsage
  | zeMemoryAllocCount
  | zeMemoryAllocBytes
  | zeMemoryFreeCount
  | zeMemoryFreeBytes
  | zeGcRuns
  | zeGcRootBuffer
  | zeGcCollected
  | zeIncludedFileCount
  | zeIncludedLineCount
  | zeUserClassCount
  | zeUserFunctionCount
  | zeUserOpcodeCount
  | zeObjectCount
  | zeErrorCount
  | memOwnRss
  | ioBytes
  | ioRbytes
  | ioWbytes
  deriving DecidableEq, Repr

namespace Metric

/-- The metrics in the order of `SPX_METRIC_FOREACH`. -/
def all : List Metric :=
  [.wallTime, .cpuTime, .idleTime, .zeMemoryUsage, .zeMemoryAllocCount, .zeMemoryAllocBytes,
    .zeMemoryFreeCount, .zeMemoryFreeBytes, .zeGcRuns, .zeGcRootBuffer, .zeGcCollected,
    .zeIncludedFileCount, .zeIncludedLineCount, .zeUserClassCount, .zeUserFunctionCount,
    .zeUserOpcodeCount, .zeObjectCount, .zeErrorCount, .memOwnRss, .ioBytes, .ioRbytes, .ioWbytes]

theorem mem_all (m : Metric) : m ∈ all := by cases m <;> decide

theorem nodup_all : all.Nodup := by decide

instance : Fintype Metric := ⟨⟨all, nodup_all⟩, mem_all⟩

/-- The registered key of a built-in metric. -/
def key : Metric → String
  | .wallTime => "wt"
  | .cpuTime => "ct"
  | .idleTime => "it"
  | .zeMemoryUsage => "zm"
  | .zeMemoryAllocCount => "zmac"
  | .zeMemoryAllocBytes => "zmab"
  | .zeMemoryFreeCount => "zmfc"
  | .zeMemoryFreeBytes => "zmfb"
  | .zeGcRuns => "zgr"
  | .zeGcRootBuffer => "zgb"
  | .zeGcCollected => "zgc"
  | .zeIncludedFileCount => "zif"
  | .zeIncludedLineCount => "zil"
  | .zeUserClassCount => "zuc"
  | .zeUserFunctionCount => "zuf"
  | .zeUserOpcodeCount => "zuo"
  | .zeObjectCount => "zo"
  | .zeErrorCount => "ze"
  | .memOwnRss => "mor"
  | .ioBytes => "io"
  | .ioRbytes => "ior"
  | .ioWbytes => "iow"

/-- The `releasable` flag of a built-in metric: its value may go down. -/
def releasable : Metric → Bool
  | .zeMemoryUsage | .zeGcRootBuffer | .zeObjectCount | .memOwnRss => true
  | _ => false

end Metric

/-- `spx_profiler_metric_values_t`. -/
abbrev MetricValues := Metric → ℚ

/-- `spx_metric_values_zero`. -/
def metricValuesZero : MetricValues := fun _ => 0

/-- `spx_metric_values_add`. -/
def metricValuesAdd (dest src : MetricValues) : MetricValues := fun i => dest i + src i

/-- `spx_metric_values_sub`. -/
def metricValuesSub (dest src : MetricValues) : MetricValues := fun i => dest i - src i

/-- `spx_metric_values_max`. -/
def metricValuesMax (dest src : MetricValues) : MetricValues :=
  fun i => if src i > dest i then src i else dest i

@[simp] theorem metricValuesZero_eq : metricValuesZero = 0 := rfl

@[simp] theorem metricValuesAdd_eq (a b : MetricValues) : metricValuesAdd a b = a + b := rfl

@[simp] theorem metricValuesSub_eq (a b : MetricValues) : metricValuesSub a b = a - b := rfl

@[simp] theorem metricValuesMax_eq (a b : MetricValues) : metricValuesMax a b = a ⊔ b := by
  funext i
  show (if b i > a i then b i else a i) = max (a i) (b i)
  split
  · rename_i h
    exact (max_eq_right (le_of_lt h)).symm
  · rename_i h
    exact (max_eq_left (not_lt.mp h)).symm

section Rounding

variable {a b : MetricValues} (ha : ∀ i, a i ∈ Lib.wholeNumbers)
  (hb : ∀ i, b i ∈ Lib.wholeNumbers)

include ha hb

/-- The sum of doubles, for whole numbers that fit in the precision. -/
theorem binary64Add_eq_metricValuesAdd (h : ∀ i, |a i + b i| ≤ 2 ^ 53) :
    (fun i => Lib.binary64Add (a i) (b i)) = metricValuesAdd a b := by
  funext i
  exact Lib.binary64Add_of_abs_le (ha i) (hb i) (h i)

/-- The difference of doubles, for whole numbers that fit in the precision. -/
theorem binary64Sub_eq_metricValuesSub (h : ∀ i, |a i - b i| ≤ 2 ^ 53) :
    (fun i => Lib.binary64Sub (a i) (b i)) = metricValuesSub a b := by
  funext i
  exact Lib.binary64Sub_of_abs_le (ha i) (hb i) (h i)

end Rounding

end PhpSpx
