import PhpSpx.Profiler.Event
import PhpSpx.Text.Fmt

/-!
# The trace reporter

`spx_reporter_trace.c`: one row for each call event.  The events are kept in a buffer, and
their rows are printed when the buffer is full, at the end of the profile and, in the safe
mode, at once.  The rows of the head are printed before the first ones.

* `TraceReporter.succeeds_notify`, `TraceReporter.not_succeeds_notify` — the rows are printed
  when they have room for three cells for each enabled metric, and only then.
-/

namespace PhpSpx

open Lib

/-- `is_safe_trace_path`.  The loop over the text finds no NUL before its end. -/
def isSafeTracePath (path : CStr) : Bool := decide ¬"..".toList <:+: path

/-- `BUFFER_CAPACITY` of the trace reporter. -/
def traceBufferCapacity : ℕ := 16384

/-- `buffer_entry_t` of the trace reporter.  The values of a start that nothing sets are
`none`. -/
structure TraceBufferEntry where
  eventType : EventType
  function : PhpFunction
  depth : ℕ
  cumMetricValues : MetricValues
  incMetricValues : Option MetricValues
  excMetricValues : Option MetricValues

/-- `trace_reporter_t`, with the text written to its stream and the one written to the
standard error stream. -/
structure TraceReporter where
  fileName : CStr
  safe : Bool
  first : Bool
  buffer : List TraceBufferEntry
  output : CStr
  stderr : CStr

/-- `spx_reporter_trace_create`; `opens` tells whether the stream can be opened. -/
def spxReporterTraceCreate (fileName : Option CStr) (safe opens : Bool) : Option TraceReporter :=
  let fileName := fileName.getD "spx_trace.txt.gz".toList
  if isSafeTracePath fileName = false then none
  else if opens = false then none
  else some ⟨fileName, safe, true, [], [], []⟩

namespace TraceReporter

/-! ## The rows -/

/-- The row with the names of the metrics. -/
def namesRow (enabledMetrics : Metric → Bool) : Except FmtDie FmtRow :=
  (Metric.enabledList enabledMetrics).foldlM
    (fun row m => row.addTcell 3 m.shortName.toList) FmtRow.create

/-- The three columns of a metric. -/
def metricColumns (row : FmtRow) (_ : Metric) : Except FmtDie FmtRow := do
  let row ← row.addTcell 1 "Cum.".toList
  let row ← row.addTcell 1 "Inc.".toList
  row.addTcell 1 "Exc.".toList

/-- The row with the names of the columns. -/
def columnsRow (enabledMetrics : Metric → Bool) : Except FmtDie FmtRow := do
  let row ← (Metric.enabledList enabledMetrics).foldlM metricColumns FmtRow.create
  let row ← row.addTcell 1 "Depth".toList
  row.addTcell 0 "Function".toList

/-- `print_header`. -/
def printHeader (enabledMetrics : Metric → Bool) : Except FmtDie CStr := do
  let names ← namesRow enabledMetrics
  let columns ← columnsRow enabledMetrics
  .ok (names.print ++ columns.print ++ columns.printSep)

/-- The value of a metric, `0` where there are none. -/
def valueOr0 (values : Option MetricValues) (m : Metric) : ℚ :=
  match values with
  | some values => values m
  | none => 0

/-- The cells of a metric in the row of an event. -/
def metricCells (entry : TraceBufferEntry) (row : FmtRow) (m : Metric) : Except FmtDie FmtRow := do
  let row ← row.addNcell 1 m.fmtType (entry.cumMetricValues m)
  let row ← row.addNcell 1 m.fmtType (valueOr0 entry.incMetricValues m)
  row.addNcell 1 m.fmtType (valueOr0 entry.excMetricValues m)

/-- The name of the function of an event, indented by its depth. -/
def indentedName (entry : TraceBufferEntry) : CStr :=
  let sign := if entry.eventType = .callStart then "+" else "-"
  let indentDepth := if entry.depth + 1 > 100 then 100 else entry.depth + 1
  snprintfText 256
    (padLeft indentDepth sign.toList ++ entry.function.className.toList ++
      (if entry.function.className.isEmpty then [] else "::".toList) ++
      entry.function.funcName.toList)

/-- The row of an event. -/
def entryRow (enabledMetrics : Metric → Bool) (entry : TraceBufferEntry) : Except FmtDie FmtRow :=
  do
    let row ← (Metric.enabledList enabledMetrics).foldlM (metricCells entry) FmtRow.create
    let row ← row.addNcell 1 .quantity ((entry.depth + 1 : ℕ) : ℚ)
    row.addTcell 0 (indentedName entry)

/-- `print_row`. -/
def printRow (enabledMetrics : Metric → Bool) (entry : TraceBufferEntry) : Except FmtDie CStr := do
  let row ← entryRow enabledMetrics entry
  .ok row.print

/-! ## Notifications -/

/-- The header, the first time. -/
def firstHeader (reporter : TraceReporter) (enabledMetrics : Metric → Bool) : Except FmtDie CStr :=
  if reporter.first then printHeader enabledMetrics else .ok []

/-- `flush_buffer`. -/
def flushBuffer (reporter : TraceReporter) (enabledMetrics : Metric → Bool) :
    Except FmtDie TraceReporter := do
  let header ← reporter.firstHeader enabledMetrics
  let rows ← reporter.buffer.mapM (printRow enabledMetrics)
  .ok
    { reporter with
      first := false
      buffer := []
      output := reporter.output ++ header ++ rows.flatten }

/-- The function of the callee of an event. -/
def calleeFunction (event : Event) : PhpFunction :=
  ((event.callee.bind fun i => event.funcTable.entries[i]?).map FuncTableEntry.function).getD
    ⟨"", ""⟩

/-- What an event leaves in the buffer. -/
def entryOf (event : Event) : TraceBufferEntry where
  eventType := event.type
  function := calleeFunction event
  depth := event.depth
  cumMetricValues := event.cum
  incMetricValues := if event.type = .callEnd then event.inc else none
  excMetricValues := if event.type = .callEnd then event.exc else none

/-- The buffer with a call event. -/
def push (reporter : TraceReporter) (event : Event) : TraceReporter :=
  if event.type = .finalize then reporter
  else { reporter with buffer := reporter.buffer ++ [entryOf event] }

/-- The line that tells where the trace is. -/
def fileLine (fileName : CStr) : CStr := "\nSPX trace file: ".toList ++ fileName ++ ['\n']

/-- `trace_notify`. -/
def notify (reporter : TraceReporter) (event : Event) :
    Except FmtDie (ReporterCost × TraceReporter) :=
  let reporter := reporter.push event
  if event.type ≠ .finalize ∧ reporter.buffer.length < traceBufferCapacity ∧ reporter.safe = false
  then .ok (.light, reporter)
  else do
    let reporter ← reporter.flushBuffer event.enabledMetrics
    .ok
      (.heavy,
        if event.type = .finalize then
          { reporter with stderr := reporter.stderr ++ fileLine reporter.fileName }
        else reporter)

/-- A notification for each event. -/
def notifyAll (events : List Event) (reporter : TraceReporter) : Except FmtDie TraceReporter :=
  runSteps (fun reporter event => (reporter.notify event).map Prod.snd) events reporter

/-- The header once, then the row of each call event, printed directly. -/
def printDirectly (enabledMetrics : Metric → Bool) (events : List Event) : Except FmtDie CStr := do
  let header ← printHeader enabledMetrics
  let rows ← (events.filter fun event => event.type ≠ .finalize).mapM fun event =>
    printRow enabledMetrics (entryOf event)
  .ok (header ++ rows.flatten)

/-! ## The cells of the rows -/

theorem succeeds_namesRow_iff (enabledMetrics : Metric → Bool) :
    Succeeds (namesRow enabledMetrics)
      ↔ 1 * (Metric.enabledList enabledMetrics).length ≤ rowMaxCells :=
  (FmtRow.adds_enabled enabledMetrics fun _ => FmtRow.adds_addCell _).create_iff

/-- A row of three cells for each metric, then two more. -/
theorem succeeds_threeEach_iff (enabledMetrics : Metric → Bool) (cell : Metric → Fin 3 → FmtCell)
    (last last' : FmtCell) :
    Succeeds
        ((Metric.enabledList enabledMetrics).foldlM
          (fun row m => do
            let row ← row.addCell (cell m 0)
            let row ← row.addCell (cell m 1)
            row.addCell (cell m 2)) FmtRow.create >>= fun row =>
          row.addCell last >>= fun row => row.addCell last')
      ↔ 3 * (Metric.enabledList enabledMetrics).length + 2 ≤ rowMaxCells := by
  have hmetrics := FmtRow.adds_enabled enabledMetrics fun m =>
    (FmtRow.adds_addCell (cell m 0)).bind
      ((FmtRow.adds_addCell (cell m 1)).bind (FmtRow.adds_addCell (cell m 2)))
  exact (hmetrics.bind ((FmtRow.adds_addCell last).bind (FmtRow.adds_addCell last'))).create_iff

theorem succeeds_columnsRow_iff (enabledMetrics : Metric → Bool) :
    Succeeds (columnsRow enabledMetrics)
      ↔ 3 * (Metric.enabledList enabledMetrics).length + 2 ≤ rowMaxCells :=
  succeeds_threeEach_iff enabledMetrics
    (fun _ i => ⟨1, none, .text (["Cum.", "Inc.", "Exc."].get i).toList⟩) _ _

theorem succeeds_entryRow_iff (enabledMetrics : Metric → Bool) (entry : TraceBufferEntry) :
    Succeeds (entryRow enabledMetrics entry)
      ↔ 3 * (Metric.enabledList enabledMetrics).length + 2 ≤ rowMaxCells :=
  succeeds_threeEach_iff enabledMetrics
    (fun m i => ⟨1, none, .num m.fmtType
      ([entry.cumMetricValues m, valueOr0 entry.incMetricValues m,
        valueOr0 entry.excMetricValues m].get i)⟩) _ _

theorem succeeds_printHeader_iff (enabledMetrics : Metric → Bool) :
    Succeeds (printHeader enabledMetrics)
      ↔ 3 * (Metric.enabledList enabledMetrics).length + 2 ≤ rowMaxCells := by
  constructor
  · intro h
    obtain ⟨names, -, h⟩ := succeeds_bind_iff.mp h
    obtain ⟨columns, hcolumns, -⟩ := succeeds_bind_iff.mp h
    exact (succeeds_columnsRow_iff enabledMetrics).mp ⟨columns, hcolumns⟩
  · intro h
    obtain ⟨names, hnames⟩ := (succeeds_namesRow_iff enabledMetrics).mpr (by omega)
    obtain ⟨columns, hcolumns⟩ := (succeeds_columnsRow_iff enabledMetrics).mpr h
    refine succeeds_bind_iff.mpr ⟨names, hnames, ?_⟩
    exact succeeds_bind_iff.mpr ⟨columns, hcolumns, succeeds_ok _⟩

theorem succeeds_printRow_iff (enabledMetrics : Metric → Bool) (entry : TraceBufferEntry) :
    Succeeds (printRow enabledMetrics entry)
      ↔ 3 * (Metric.enabledList enabledMetrics).length + 2 ≤ rowMaxCells := by
  rw [printRow, succeeds_bind_iff_and fun _ => iff_true_intro (succeeds_ok _), and_true]
  exact succeeds_entryRow_iff enabledMetrics entry

theorem succeeds_flushBuffer (reporter : TraceReporter) {enabledMetrics : Metric → Bool}
    (h : 3 * (Metric.enabledList enabledMetrics).length + 2 ≤ rowMaxCells) :
    Succeeds (reporter.flushBuffer enabledMetrics) := by
  have hheader : Succeeds (reporter.firstHeader enabledMetrics) := by
    rw [firstHeader]
    split
    · exact (succeeds_printHeader_iff enabledMetrics).mpr h
    · exact succeeds_ok _
  obtain ⟨header, hheader⟩ := hheader
  obtain ⟨rows, hrows⟩ : Succeeds (reporter.buffer.mapM (printRow enabledMetrics)) :=
    succeeds_mapM_iff.mpr fun entry _ => (succeeds_printRow_iff enabledMetrics entry).mpr h
  refine succeeds_bind_iff.mpr ⟨header, hheader, ?_⟩
  exact succeeds_bind_iff.mpr ⟨rows, hrows, succeeds_ok _⟩

/-- A trace reporter is created for a safe file that opens, with the rows of the head still to
print. -/
theorem create_eq_some {fileName : Option CStr} {safe opens : Bool} {reporter : TraceReporter}
    (h : spxReporterTraceCreate fileName safe opens = some reporter) :
    isSafeTracePath (fileName.getD "spx_trace.txt.gz".toList) = true ∧ opens = true ∧
      reporter.first = true := by
  rw [spxReporterTraceCreate] at h
  split_ifs at h with hsafe hopens
  cases h
  exact ⟨Bool.not_eq_false _ |>.mp hsafe, Bool.not_eq_false _ |>.mp hopens, rfl⟩

/-- No notification fails when the rows have room. -/
theorem succeeds_notify (reporter : TraceReporter) {event : Event}
    (h : 3 * (Metric.enabledList event.enabledMetrics).length + 2 ≤ rowMaxCells) :
    Succeeds (reporter.notify event) := by
  rw [notify]
  split
  · exact succeeds_ok _
  · obtain ⟨reporter', hflush⟩ := (reporter.push event).succeeds_flushBuffer h
    exact succeeds_bind_iff.mpr ⟨reporter', hflush, succeeds_ok _⟩

/-- The rows of the head fail first. -/
theorem not_succeeds_notify {reporter : TraceReporter} {event : Event}
    (hfirst : reporter.first = true) (htype : event.type = .finalize)
    (h : rowMaxCells < 3 * (Metric.enabledList event.enabledMetrics).length + 2) :
    ¬Succeeds (reporter.notify event) := by
  have hpush : reporter.push event = reporter := if_pos htype
  rw [notify, hpush, if_neg fun hlight => hlight.1 htype]
  intro hok
  obtain ⟨reporter', hflush, -⟩ := succeeds_bind_iff.mp hok
  obtain ⟨header, hheader, -⟩ := succeeds_bind_iff.mp ⟨reporter', hflush⟩
  rw [firstHeader, if_pos hfirst] at hheader
  have hroom := (succeeds_printHeader_iff event.enabledMetrics).mp ⟨header, hheader⟩
  omega

end TraceReporter

end PhpSpx
