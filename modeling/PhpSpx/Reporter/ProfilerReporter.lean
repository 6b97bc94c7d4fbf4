import PhpSpx.Lib.Outcome
import PhpSpx.Reporter.Fp
import PhpSpx.Reporter.Full
import PhpSpx.Reporter.Trace
import PhpSpx.Request.Config

/-!
# The reporter of a profile

The reporter that `profiling_handler_start` creates for a configuration, behind the
interface of `spx_profiler_reporter_t`, and its run over the events of a profile.

* `ProfilerReporter.Fits` — the rows have room for their cells: no run fails then, and some run
  fails otherwise.
-/

namespace PhpSpx

open Lib

/-- `spx_profiler_reporter_t`. -/
inductive ProfilerReporter where
  | full (reporter : FullReporter)
  | fp (reporter : FpReporter)
  | trace (reporter : TraceReporter)

/-- The reporter that `profiling_handler_start` creates; `opens` tells whether the file of the
trace can be opened. -/
def profilerReporterCreate (config : SpxConfig) (terminal : Terminal) (opens : Bool) :
    Option ProfilerReporter :=
  match config.report with
  | .full => some (.full spxReporterFullCreate)
  | .flatProfile =>
    some (.fp (spxReporterFpCreate terminal config.fpFocus config.fpInc config.fpRel
      config.fpLimit config.fpLive config.fpColor))
  | .trace => (spxReporterTraceCreate config.traceFile config.traceSafe opens).map .trace

/-- An event, with what the reporters ask for when they are notified: the wall time and the
peak memory usage. -/
structure Notification where
  event : Event
  wallTime : UInt64
  peakMemoryUsage : ℕ

namespace ProfilerReporter

/-- `notify`. -/
def notify (reporter : ProfilerReporter) (n : Notification) :
    Except FmtDie (ReporterCost × ProfilerReporter) :=
  match reporter with
  | .full reporter =>
    let notified := reporter.notify n.event n.peakMemoryUsage
    .ok (notified.1, .full notified.2)
  | .fp reporter => do
    let notified ← reporter.notify n.event n.wallTime
    .ok (notified.1, .fp notified.2)
  | .trace reporter => do
    let notified ← reporter.notify n.event
    .ok (notified.1, .trace notified.2)

/-- One notification of a run. -/
def step (reporter : ProfilerReporter) (n : Notification) : Except FmtDie ProfilerReporter := do
  let notified ← reporter.notify n
  .ok notified.2

/-- The notifications of a profile. -/
def run (reporter : ProfilerReporter) (ns : List Notification) : Except FmtDie ProfilerReporter :=
  runSteps step ns reporter

/-! ## Rows with room for their cells -/

/-- The rows have room for the cells of the enabled metrics: two for each in a flat profile,
three in a trace, and two more. -/
def Fits (enabledMetrics : Metric → Bool) : ProfilerReporter → Prop
  | .full _ => True
  | .fp _ => 2 * (Metric.enabledList enabledMetrics).length + 2 ≤ rowMaxCells
  | .trace _ => 3 * (Metric.enabledList enabledMetrics).length + 2 ≤ rowMaxCells

/-- One notification: nothing fails, and the reporter is of the same kind. -/
theorem Fits.ends_step {enabledMetrics : Metric → Bool} {reporter : ProfilerReporter}
    (h : reporter.Fits enabledMetrics) {n : Notification}
    (hn : n.event.enabledMetrics = enabledMetrics) :
    Ends (reporter.step n) (Fits enabledMetrics) fun _ => False := by
  subst hn
  cases reporter with
  | full reporter => exact trivial
  | fp reporter =>
    obtain ⟨notified, hok⟩ := reporter.succeeds_notify h n.wallTime
    refine ends_of_ok (a := .fp notified.2) ?_ h
    rw [step, notify, hok]
    rfl
  | trace reporter =>
    obtain ⟨notified, hok⟩ := reporter.succeeds_notify h
    refine ends_of_ok (a := .trace notified.2) ?_ h
    rw [step, notify, hok]
    rfl

/-- Any notifications. -/
theorem Fits.succeeds_run {enabledMetrics : Metric → Bool} {reporter : ProfilerReporter}
    (h : reporter.Fits enabledMetrics) {ns : List Notification}
    (hns : ∀ n ∈ ns, n.event.enabledMetrics = enabledMetrics) : Succeeds (reporter.run ns) := by
  induction ns generalizing reporter with
  | nil => exact succeeds_ok _
  | cons n ns ih =>
    obtain ⟨hn, hns⟩ := List.forall_mem_cons.mp hns
    have hstep := h.ends_step hn
    obtain ⟨reporter', hok⟩ := hstep.succeeds
    rw [hok] at hstep
    refine succeeds_bind_iff.mpr ⟨reporter', hok, ih hstep hns⟩

/-- The end of a profile of one function. -/
def endOfProfile (enabledMetrics : Metric → Bool) : Notification where
  event :=
    { type := .finalize
      enabledMetrics := enabledMetrics
      called := 1
      max := 0
      cum := 0
      funcTable := ⟨1, 65536, [⟨0, ⟨"main", ""⟩, ⟨1, 0, 0, 0⟩⟩]⟩
      depth := 0
      caller := none
      callee := none
      inc := none
      exc := none }
  wallTime := 0
  peakMemoryUsage := 0

/-- Without room, the end of a profile aborts a reporter that has been created. -/
theorem not_succeeds_run {config : SpxConfig} {terminal : Terminal} {opens : Bool}
    {reporter : ProfilerReporter} (hcreate : profilerReporterCreate config terminal opens = some reporter)
    (h : ¬reporter.Fits config.enabledMetrics) :
    ¬Succeeds (reporter.run [endOfProfile config.enabledMetrics]) := by
  rintro ⟨last, hrun⟩
  rw [run, runSteps] at hrun
  obtain ⟨reporter', hstep, -⟩ := succeeds_bind_iff.mp ⟨last, hrun⟩
  obtain ⟨notified, hnotify, -⟩ := succeeds_bind_iff.mp ⟨reporter', hstep⟩
  cases hreport : config.report with
  | full =>
    rw [profilerReporterCreate, hreport] at hcreate
    cases hcreate
    exact h trivial
  | flatProfile =>
    rw [profilerReporterCreate, hreport] at hcreate
    cases hcreate
    obtain ⟨printed, hprinted, -⟩ := succeeds_bind_iff.mp ⟨notified, hnotify⟩
    rcases (FpReporter.succeeds_report_iff _ _).mp ⟨printed, hprinted⟩ with hempty | hroom
    · exact Nat.one_ne_zero hempty
    · exact h hroom
  | trace =>
    rw [profilerReporterCreate, hreport] at hcreate
    obtain ⟨reporter, hreporter, rfl⟩ := Option.map_eq_some_iff.mp hcreate
    obtain ⟨printed, hprinted, -⟩ := succeeds_bind_iff.mp ⟨notified, hnotify⟩
    have hfull : rowMaxCells < 3 * (Metric.enabledList config.enabledMetrics).length + 2 :=
      not_le.mp h
    have hfirst := (TraceReporter.create_eq_some hreporter).2.2
    exact TraceReporter.not_succeeds_notify hfirst rfl hfull ⟨printed, hprinted⟩

/-- No profile makes a reporter abort exactly when its rows have room. -/
theorem forall_succeeds_run_iff {config : SpxConfig} {terminal : Terminal} {opens : Bool}
    {reporter : ProfilerReporter}
    (hcreate : profilerReporterCreate config terminal opens = some reporter) :
    (∀ ns : List Notification, (∀ n ∈ ns, n.event.enabledMetrics = config.enabledMetrics) →
        Succeeds (reporter.run ns)) ↔ reporter.Fits config.enabledMetrics := by
  refine ⟨?_, fun h ns hns => h.succeeds_run hns⟩
  intro h
  by_contra hnot
  refine not_succeeds_run hcreate hnot (h _ ?_)
  intro n hn
  rw [List.mem_singleton.mp hn]
  rfl

end ProfilerReporter

end PhpSpx
