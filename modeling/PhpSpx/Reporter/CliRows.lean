import PhpSpx.Reporter.ProfilerReporter

/-!
# Rows of the reports of the CLI

Whether the rows of a report have room for the enabled metrics, told from the environment of
the process.

* `cli_reports_print_iff` — no profile makes the reporter of the CLI abort exactly when they
  have.
-/

namespace PhpSpx

open Lib

section Environment

variable (inputs : Inputs)

/-- The report that the environment asks for. -/
def cliReport : ConfigReport :=
  ((inputs.getenv "SPX_REPORT".toList).map (reportOr .flatProfile)).getD .flatProfile

/-- The metrics that the environment asks for. -/
def cliMetrics : Metric → Bool :=
  ((inputs.getenv "SPX_METRICS".toList).map metricsOfList).getD
    fun m => m = .wallTime ∨ m = .zeMemoryUsage

/-- The focus that the environment asks for. -/
def cliFocus : Metric :=
  ((inputs.getenv "SPX_FP_FOCUS".toList).map fun s =>
    (metricGetByKey s).getD .wallTime).getD .wallTime

/-- The file that the environment asks the trace to be written to. -/
def cliTraceFile : CStr := (inputs.getenv "SPX_TRACE_FILE".toList).getD "spx_trace.txt.gz".toList

/-- The rows of the report that the environment asks for have room for their cells: at most 7
metrics in a flat profile, the focus being one of them, and at most 4 in a trace that is
written. -/
def CliRowsFit : Prop :=
  match cliReport inputs with
  | .full => True
  | .flatProfile =>
    (Metric.enabledList (Function.update (cliMetrics inputs) (cliFocus inputs) true)).length ≤ 7
  | .trace =>
    (Metric.enabledList (cliMetrics inputs)).length ≤ 4 ∨
      isSafeTracePath (cliTraceFile inputs) = false

variable (config : SpxConfig)

theorem cli_report_eq : (spxConfigGet inputs config true [.env]).report = cliReport inputs := by
  rw [spxConfigGet_cli, fixConfig_cli_report, sourceDataToConfig_report]
  rfl

theorem cli_enabledMetrics_eq :
    (spxConfigGet inputs config true [.env]).enabledMetrics
      = metricsForReport (cliReport inputs) (cliFocus inputs) (cliMetrics inputs) := by
  rw [spxConfigGet_cli, fixConfig_cli_enabledMetrics, sourceDataToConfig_report,
    sourceDataToConfig_fpFocus, sourceDataToConfig_enabledMetrics]
  rfl

theorem cli_traceFile_eq :
    (spxConfigGet inputs config true [.env]).traceFile
      = inputs.getenv "SPX_TRACE_FILE".toList := by
  rw [spxConfigGet_cli, fixConfig_cli_traceFile, sourceDataToConfig_traceFile]
  show ((inputs.getenv "SPX_TRACE_FILE".toList).map some).getD none = _
  cases inputs.getenv "SPX_TRACE_FILE".toList with
  | none => rfl
  | some file => rfl

end Environment

/-- **No profile makes the reporter of the CLI abort**, whatever its events, exactly when the
rows of the report have room for the metrics that the environment asks for. -/
theorem cli_reports_print_iff (inputs : Inputs) (config : SpxConfig) :
    (∀ terminal opens reporter,
        profilerReporterCreate (spxConfigGet inputs config true [.env]) terminal opens
          = some reporter →
        ∀ ns : List Notification,
          (∀ n ∈ ns, n.event.enabledMetrics
            = (spxConfigGet inputs config true [.env]).enabledMetrics) →
          Succeeds (reporter.run ns)) ↔ CliRowsFit inputs := by
  have hreport := cli_report_eq inputs config
  have hmetrics := cli_enabledMetrics_eq inputs config
  have hfile := cli_traceFile_eq inputs config
  set cliConfig := spxConfigGet inputs config true [.env]
  have hruns : (∀ terminal opens reporter,
        profilerReporterCreate cliConfig terminal opens = some reporter →
        ∀ ns : List Notification, (∀ n ∈ ns, n.event.enabledMetrics = cliConfig.enabledMetrics) →
          Succeeds (reporter.run ns)) ↔
      ∀ terminal opens reporter, profilerReporterCreate cliConfig terminal opens = some reporter →
        reporter.Fits cliConfig.enabledMetrics :=
    forall₄_congr fun _ _ _ hcreate => ProfilerReporter.forall_succeeds_run_iff hcreate
  rw [hruns, CliRowsFit]
  cases h : cliReport inputs with
  | full =>
    refine iff_of_true (fun terminal opens reporter hcreate => ?_) trivial
    rw [profilerReporterCreate, hreport, h] at hcreate
    cases hcreate
    exact trivial
  | flatProfile =>
    rw [h] at hreport hmetrics
    constructor
    · intro hfits
      have hroom := hfits ⟨false, false⟩ false _ (by rw [profilerReporterCreate, hreport])
      rw [ProfilerReporter.Fits, hmetrics, metricsForReport, rowMaxCells] at hroom
      dsimp only
      omega
    · intro hroom terminal opens reporter hcreate
      rw [profilerReporterCreate, hreport] at hcreate
      cases hcreate
      rw [ProfilerReporter.Fits, hmetrics, metricsForReport, rowMaxCells]
      dsimp only at hroom ⊢
      omega
  | trace =>
    rw [h] at hreport hmetrics
    have hopen : cliConfig.traceFile.getD "spx_trace.txt.gz".toList = cliTraceFile inputs := by
      rw [hfile, cliTraceFile]
    constructor
    · intro hfits
      rw [or_iff_not_imp_right, Bool.not_eq_false]
      intro hsafe
      have hcreate : profilerReporterCreate cliConfig ⟨false, false⟩ true
          = some (.trace ⟨cliTraceFile inputs, cliConfig.traceSafe, true, [], [], []⟩) := by
        rw [profilerReporterCreate, hreport]
        simp only [spxReporterTraceCreate, hopen, hsafe]
        rfl
      have hroom := hfits _ _ _ hcreate
      rw [ProfilerReporter.Fits, hmetrics, metricsForReport, rowMaxCells] at hroom
      omega
    · intro hroom terminal opens reporter hcreate
      rw [profilerReporterCreate, hreport] at hcreate
      obtain ⟨traceReporter, hreporter, rfl⟩ := Option.map_eq_some_iff.mp hcreate
      have hsafe := (TraceReporter.create_eq_some hreporter).1
      rw [hopen] at hsafe
      have hroom := hroom.resolve_right (by rw [hsafe]; decide)
      rw [ProfilerReporter.Fits, hmetrics, metricsForReport, rowMaxCells]
      omega

/-- The environment of a process that asks for eight metrics. -/
def eightMetrics : Inputs where
  iniString := fun _ => none
  getenv := fun name =>
    if name = "SPX_METRICS".toList then some "wt,ct,it,zm,zmac,zmab,zmfc,zmfb".toList else none
  globalArrayGet := fun _ _ => none

/-- The configuration of that process. -/
def eightConfig : SpxConfig := spxConfigGet eightMetrics (defaultConfig true) true [.env]

/-- Eight metrics make the flat profile abort. -/
theorem cli_report_aborts :
    ∃ reporter, profilerReporterCreate eightConfig ⟨false, false⟩ true = some reporter ∧
      reporter.run [ProfilerReporter.endOfProfile eightConfig.enabledMetrics]
        = .error .rowMaxCellsExceeded :=
  ⟨_, rfl, rfl⟩

end PhpSpx
