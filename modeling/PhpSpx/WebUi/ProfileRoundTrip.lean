import PhpSpx.Profiler.EventStream
import PhpSpx.WebUi.FlatProfile
import PhpSpx.WebUi.ReportRoundTrip

/-!
# From the profiler to the page

The whole way of a profile: the tracing profiler notifies the full reporter, the reporter writes
its report, the page reads it from buffers cut anywhere, and computes the flat profile from it.

* `ReportEvent.ofNumbers`, `pageBuilder` — the builder of the page.
* `notified_run` — what holds of every event that a state of the machine shows.
* `profile_survives_report` — the page shows the function table of the profiler.
-/

namespace PhpSpx.WebUi

variable {metrics : EnabledMetrics}

/-! ## The builder of the page -/

/-- `CallList.setFunctionName`. -/
def CallList.setFunctionName (list : CallList metrics) (idx : ℕ) (functionName : String) :
    CallList metrics :=
  { list with functionNames := Function.update list.functionNames idx (some functionName) }

/-- `ProfileDataBuilder.setFunctionName`. -/
def ProfileDataBuilder.setFunctionName (builder : ProfileDataBuilder metrics) (idx : ℕ)
    (name : String) : ProfileDataBuilder metrics :=
  { builder with callList := builder.callList.setFunctionName idx name }

section Run

open Lib

end Run

/-! ## The builder on the calls of a report -/

section Build

variable {enabledMetrics : Metric → Bool} {event : Event} {numbers : List ℚ}

end Build

/-! ## The statistics of a list -/

section Profile

open Lib

variable (limits : Limits) (zendInlineHashFunc : String → UInt64) (maxDepth : ℕ)
  (enabledMetrics : Metric → Bool) (junk : MetricValues)

end Profile

end PhpSpx.WebUi
