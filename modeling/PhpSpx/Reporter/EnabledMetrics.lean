import PhpSpx.Profiler.EnabledPart
import PhpSpx.Reporter.ProfilerReporter

/-!
# What the reporters output of a profile

The reporters read the values of the enabled metrics only: what they output for an event is
what they output for its `Event.enabledPart`.  A flat profile also reads its focus, and a full
report the wall time, which the configuration switches on.

* `ProfilerReporter.Reads` — the metrics that a reporter reads besides are enabled.
* `ProfilerReporter.run_enabledPart` — the output of a reporter for any notifications.
* `reports_depend_on_enabled_metrics` — the reports of two profiles.
-/

namespace PhpSpx

open Lib

variable {E : Metric → Bool}

theorem mem_enabledList_apply {m : Metric} (hm : m ∈ Metric.enabledList E) (v : MetricValues) :
    enabledValues E v m = v m := enabledValues_apply (Metric.mem_enabledList.mp hm) v

/-- The cells of the metrics of a list, from functions that agree on it. -/
theorem foldlM_congr {metrics : List Metric} {f g : FmtRow → Metric → Except FmtDie FmtRow}
    (h : ∀ m ∈ metrics, ∀ row, f row m = g row m) (row : FmtRow) :
    metrics.foldlM f row = metrics.foldlM g row := by
  induction metrics generalizing row with
  | nil => rfl
  | cons m metrics ih =>
    obtain ⟨hm, hrest⟩ := List.forall_mem_cons.mp h
    rw [List.foldlM_cons, List.foldlM_cons, hm row]
    exact congrArg (g row m >>= ·) (funext fun row => ih hrest row)

/-- A field of the callee's entry, other than its statistics. -/
theorem callee_enabledPart {α : Type} {field : FuncTableEntry → α}
    (hfield : ∀ entry, field (entry.enabledPart E) = field entry) (event : Event) :
    ((event.enabledPart E).callee.bind fun i => (event.enabledPart E).funcTable.entries[i]?).map
        field
      = (event.callee.bind fun i => event.funcTable.entries[i]?).map field := by
  show (event.callee.bind fun i =>
    (event.funcTable.entries.map (FuncTableEntry.enabledPart E))[i]?).map field = _
  cases event.callee with
  | none => rfl
  | some i =>
    simp only [Option.bind_some, List.getElem?_map, Option.map_map]
    exact congrArg (fun f => Option.map f _) (funext hfield)

/-! ## The flat profile -/

namespace FpReporter

variable {reporter : FpReporter}

theorem entryCmpR_enabledPart (hfocus : E reporter.focus = true) (a b : FuncTableEntry) :
    entryCmpR (a.enabledPart E) (b.enabledPart E) reporter = entryCmpR a b reporter := by
  have hhigh (entry : FuncTableEntry) :
      reporter.high (entry.enabledPart E) = reporter.high entry := by
    simp only [high, FuncTableEntry.enabledPart, FuncStats.enabledPart, enabledValues_apply hfocus]
  have hlow (entry : FuncTableEntry) :
      reporter.low (entry.enabledPart E) = reporter.low entry := by
    simp only [low, FuncTableEntry.enabledPart, FuncStats.enabledPart, enabledValues_apply hfocus]
  rw [entryCmpR, hhigh, hhigh, hlow, hlow]
  rfl

theorem replaceFirst_map {f : FuncTableEntry → FuncTableEntry}
    (hf : ∀ a b, entryCmpR (f a) (f b) reporter = entryCmpR a b reporter)
    (current : FuncTableEntry) (top : List FuncTableEntry) :
    reporter.replaceFirst (f current) (top.map f) = (reporter.replaceFirst current top).map f := by
  induction top with
  | nil => rfl
  | cons t top ih =>
    rw [List.map_cons, replaceFirst, replaceFirst, hf]
    split
    · rfl
    · rw [ih, List.map_cons]

theorem topEntries_map {f : FuncTableEntry → FuncTableEntry}
    (hf : ∀ a b, entryCmpR (f a) (f b) reporter = entryCmpR a b reporter)
    (entries : List FuncTableEntry) :
    reporter.topEntries (entries.map f) = (reporter.topEntries entries).map f := by
  have hlimit : reporter.reportLimit (entries.map f) = reporter.reportLimit entries := by
    rw [reportLimit, reportLimit, List.length_map]
  have hwindow (rest top : List FuncTableEntry) :
      (rest.map f).foldl (fun top current => reporter.replaceFirst current top) (top.map f)
        = (rest.foldl (fun top current => reporter.replaceFirst current top) top).map f := by
    induction rest generalizing top with
    | nil => rfl
    | cons current rest ih => rw [List.map_cons, List.foldl_cons, List.foldl_cons,
        replaceFirst_map hf, ih]
  rw [topEntries, topEntries, hlimit, ← List.map_drop, ← List.map_take, hwindow, qsort, qsort]
  exact (List.map_insertionSort _ _ f _ fun a _ b _ => by rw [hf]).symm

theorem entryRow_enabledPart {event : Event} (hE : event.enabledMetrics = E)
    (entry : FuncTableEntry) :
    reporter.entryRow (event.enabledPart E) (entry.enabledPart E)
      = reporter.entryRow event entry := by
  subst hE
  have hcells : (Metric.enabledList event.enabledMetrics).foldlM
        (reporter.metricCells (event.enabledPart event.enabledMetrics).max
          (entry.enabledPart event.enabledMetrics)) FmtRow.create
      = (Metric.enabledList event.enabledMetrics).foldlM (reporter.metricCells event.max entry)
        FmtRow.create := by
    refine foldlM_congr ?_ _
    intro m hm row
    simp only [metricCells, Event.enabledPart, FuncTableEntry.enabledPart,
      FuncStats.enabledPart, mem_enabledList_apply hm]
  rw [entryRow, entryRow, ← hcells]
  rfl

theorem globalStats_enabledPart {event : Event} (hE : event.enabledMetrics = E) :
    globalStats (event.enabledPart E) = globalStats event := by
  subst hE
  have hlines : (Metric.enabledList event.enabledMetrics).flatMap
        (maxLine (enabledValues event.enabledMetrics event.max))
      = (Metric.enabledList event.enabledMetrics).flatMap (maxLine event.max) :=
    List.flatMap_congr fun m hm => by rw [maxLine, mem_enabledList_apply hm, maxLine]
  have hlength : (event.enabledPart event.enabledMetrics).funcTable.entries.length
      = event.funcTable.entries.length := List.length_map _
  unfold globalStats
  rw [hlength]
  apply congrArg (· ++ "\nFlat profile:\n\n".toList)
  exact congrArg₂ (· ++ ·) rfl hlines

theorem printReport_enabledPart (hfocus : E reporter.focus = true) {event : Event}
    (hE : event.enabledMetrics = E) :
    reporter.printReport (event.enabledPart E) = reporter.printReport event := by
  have hlength : (event.enabledPart E).funcTable.entries.length
      = event.funcTable.entries.length := List.length_map _
  have htop : reporter.topEntries (event.enabledPart E).funcTable.entries
      = (reporter.topEntries event.funcTable.entries).map (FuncTableEntry.enabledPart E) :=
    topEntries_map (entryCmpR_enabledPart hfocus) _
  have hrows : (reporter.topEntries (event.enabledPart E).funcTable.entries).mapM
        (reporter.entryRow (event.enabledPart E))
      = (reporter.topEntries event.funcTable.entries).mapM (reporter.entryRow event) := by
    rw [htop, List.mapM_map]
    exact congrArg (fun f => List.mapM f _) (funext fun entry => entryRow_enabledPart hE entry)
  have hlimit : reporter.reportLimit (event.enabledPart E).funcTable.entries
      = reporter.reportLimit event.funcTable.entries := by
    rw [reportLimit, reportLimit, hlength]
  rw [printReport, printReport, hlength, hrows, hlimit, globalStats_enabledPart hE]
  rfl

/-- A notification. -/
theorem notify_enabledPart (hfocus : E reporter.focus = true) {event : Event}
    (hE : event.enabledMetrics = E) (wallTime : UInt64) :
    reporter.notify (event.enabledPart E) wallTime = reporter.notify event wallTime := by
  have hreport {reporter : FpReporter} (hfocus : E reporter.focus = true) :
      reporter.report (event.enabledPart E) = reporter.report event := by
    rw [report, report, printReport_enabledPart hfocus hE]
  have htype : (event.enabledPart E).type = event.type := rfl
  rw [notify, notify, htype, hreport hfocus]
  cases event.type with
  | callStart => rfl
  | callEnd =>
    dsimp only
    rw [hreport (show E ({ reporter with lastTsMs := wallTime / (1000 * 1000) }).focus = true
      from hfocus)]
  | finalize => rfl

theorem focus_of_report {reporter : FpReporter} {event : Event}
    {notified : ReporterCost × FpReporter} (h : reporter.report event = .ok notified) :
    notified.2.focus = reporter.focus := by
  obtain ⟨printed, -, hnotified⟩ := bind_eq_ok_iff.mp h
  cases hnotified
  rfl

/-- The focus never changes. -/
theorem focus_of_notify {event : Event} {wallTime : UInt64}
    {notified : ReporterCost × FpReporter} (h : reporter.notify event wallTime = .ok notified) :
    notified.2.focus = reporter.focus := by
  rw [notify] at h
  cases htype : event.type with
  | callStart =>
    rw [htype] at h
    cases h
    rfl
  | callEnd =>
    rw [htype] at h
    dsimp only at h
    split_ifs at h
    · cases h
      rfl
    · cases h
      rfl
    · have hfocus := focus_of_report h
      exact hfocus
  | finalize =>
    rw [htype] at h
    exact focus_of_report h

end FpReporter

/-! ## The trace -/

/-- What an entry of the buffer says of the enabled metrics. -/
noncomputable def TraceBufferEntry.enabledPart (E : Metric → Bool) (entry : TraceBufferEntry) :
    TraceBufferEntry :=
  { entry with
    cumMetricValues := enabledValues E entry.cumMetricValues
    incMetricValues := entry.incMetricValues.map (enabledValues E)
    excMetricValues := entry.excMetricValues.map (enabledValues E) }

namespace TraceReporter

/-- What a trace reporter has in its buffer of the enabled metrics. -/
noncomputable def enabledPart (E : Metric → Bool) (reporter : TraceReporter) : TraceReporter :=
  { reporter with buffer := reporter.buffer.map (TraceBufferEntry.enabledPart E) }

theorem printRow_enabledPart (entry : TraceBufferEntry) :
    printRow E (entry.enabledPart E) = printRow E entry := by
  have hvalue {m : Metric} (hm : m ∈ Metric.enabledList E) (values : Option MetricValues) :
      valueOr0 (values.map (enabledValues E)) m = valueOr0 values m := by
    cases values with
    | none => rfl
    | some values => exact mem_enabledList_apply hm values
  have hcells : (Metric.enabledList E).foldlM (metricCells (entry.enabledPart E)) FmtRow.create
      = (Metric.enabledList E).foldlM (metricCells entry) FmtRow.create := by
    refine foldlM_congr ?_ _
    intro m hm row
    simp only [metricCells, TraceBufferEntry.enabledPart, mem_enabledList_apply hm, hvalue hm]
  rw [printRow, printRow, entryRow, entryRow, hcells]
  rfl

theorem flushBuffer_enabledPart (reporter : TraceReporter) :
    (reporter.enabledPart E).flushBuffer E = reporter.flushBuffer E := by
  have hrows : (reporter.enabledPart E).buffer.mapM (printRow E)
      = reporter.buffer.mapM (printRow E) := by
    rw [enabledPart, List.mapM_map]
    exact congrArg (fun f => List.mapM f _) (funext printRow_enabledPart)
  rw [flushBuffer, flushBuffer, hrows]
  rfl

theorem entryOf_enabledPart (event : Event) :
    entryOf (event.enabledPart E) = (entryOf event).enabledPart E := by
  have hfunction : calleeFunction (event.enabledPart E) = calleeFunction event :=
    congrArg (Option.getD · _) (callee_enabledPart (fun _ => rfl) event)
  have hvalues (values : Option MetricValues) :
      (if event.type = .callEnd then values.map (enabledValues E) else none)
        = (if event.type = .callEnd then values else none).map (enabledValues E) := by
    split
    · rfl
    · rfl
  rw [entryOf, hfunction, TraceBufferEntry.enabledPart, entryOf, ← hvalues, ← hvalues]
  rfl

theorem push_enabledPart (reporter : TraceReporter) (event : Event) :
    (reporter.enabledPart E).push (event.enabledPart E) = (reporter.push event).enabledPart E := by
  have htype : (event.enabledPart E).type = event.type := rfl
  rw [push, push, htype, entryOf_enabledPart]
  split
  · rfl
  · simp [enabledPart]

/-- Nothing is left in the buffer. -/
theorem flushBuffer_map_enabledPart (reporter : TraceReporter) :
    (reporter.flushBuffer E).map (enabledPart E) = reporter.flushBuffer E := by
  rw [flushBuffer]
  cases reporter.firstHeader E with
  | error die => rfl
  | ok header =>
    cases reporter.buffer.mapM (printRow E) with
    | error die => rfl
    | ok rows => rfl

/-- A notification. -/
theorem notify_enabledPart (reporter : TraceReporter) {event : Event}
    (hE : event.enabledMetrics = E) :
    (reporter.enabledPart E).notify (event.enabledPart E)
      = (reporter.notify event).map fun notified => (notified.1, notified.2.enabledPart E) := by
  subst hE
  have htype : (event.enabledPart event.enabledMetrics).type = event.type := rfl
  have hlight : ((reporter.push event).enabledPart event.enabledMetrics).buffer.length
      = (reporter.push event).buffer.length := List.length_map _
  have hsafe : ((reporter.push event).enabledPart event.enabledMetrics).safe
      = (reporter.push event).safe := rfl
  rw [notify, notify, push_enabledPart, htype, hlight, hsafe]
  split
  · rfl
  · show (flushBuffer _ event.enabledMetrics >>= _) = _
    have hflush := (reporter.push event).flushBuffer_map_enabledPart (E := event.enabledMetrics)
    rw [flushBuffer_enabledPart]
    cases hflushed : (reporter.push event).flushBuffer event.enabledMetrics with
    | error die => rfl
    | ok flushed =>
      rw [hflushed] at hflush
      have hself : flushed.enabledPart event.enabledMetrics = flushed := Except.ok.inj hflush
      apply congrArg (fun flushed => Except.ok (ReporterCost.heavy, flushed))
      show (if event.type = .finalize then _ else flushed) = enabledPart _ (if _ then _ else _)
      split
      · exact congrArg
          (fun r : TraceReporter => { r with stderr := r.stderr ++ fileLine r.fileName })
          hself.symm
      · exact hself.symm

theorem enabledPart_of_create {fileName : Option CStr} {safe opens : Bool}
    {reporter : TraceReporter} (h : spxReporterTraceCreate fileName safe opens = some reporter) :
    reporter.enabledPart E = reporter := by
  rw [spxReporterTraceCreate] at h
  split_ifs at h
  cases h
  rfl

end TraceReporter

/-! ## The full report -/

/-- What an entry of the buffer says of the enabled metrics. -/
noncomputable def BufferEntry.enabledPart (E : Metric → Bool) (entry : BufferEntry) : BufferEntry :=
  { entry with metricValues := enabledValues E entry.metricValues }

namespace FullReporter

/-- What a full reporter has in its buffer of the enabled metrics. -/
noncomputable def enabledPart (E : Metric → Bool) (reporter : FullReporter) : FullReporter :=
  { reporter with buffer := reporter.buffer.map (BufferEntry.enabledPart E) }

theorem appendMetrics_enabledValues (values : MetricValues) (metrics : List Metric)
    (b : StrBuilder) :
    appendMetrics E (enabledValues E values) metrics b = appendMetrics E values metrics b := by
  induction metrics generalizing b with
  | nil => rfl
  | cons m metrics ih =>
    rw [appendMetrics, appendMetrics]
    split
    · exact ih b
    · rename_i hm
      rw [enabledValues_apply (Bool.not_eq_false _ |>.mp hm), ih]

theorem flushBuffer_enabledPart (reporter : FullReporter) :
    (reporter.enabledPart E).flushBuffer E = reporter.flushBuffer E := by
  have hline (entry : BufferEntry) (b : StrBuilder) :
      appendEntry E (entry.enabledPart E) b = appendEntry E entry b := by
    rw [appendEntry, BufferEntry.enabledPart, appendMetrics_enabledValues]
    rfl
  have hentry (sink : Sink) (entry : BufferEntry) :
      flushEntry E sink (entry.enabledPart E) = flushEntry E sink entry := by
    rw [flushEntry, hline]
    rfl
  have hsink (sink : Sink) :
      (reporter.enabledPart E).buffer.foldl (flushEntry E) sink
        = reporter.buffer.foldl (flushEntry E) sink := by
    rw [enabledPart, List.foldl_map]
    exact congrArg (fun f => List.foldl f sink _) (funext₂ hentry)
  simp only [flushBuffer, hsink]
  rfl

theorem countCall_enabledPart (reporter : FullReporter) (event : Event) :
    (reporter.enabledPart E).countCall (event.enabledPart E)
      = (reporter.countCall event).enabledPart E := by
  have htype : (event.enabledPart E).type = event.type := rfl
  rw [countCall, countCall, htype]
  split
  · rfl
  · rfl

theorem entryOf_enabledPart (event : Event) :
    entryOf (event.enabledPart E) = (entryOf event).enabledPart E := by
  have hidx : calleeIdx (event.enabledPart E) = calleeIdx event :=
    congrArg (Option.getD · _) (callee_enabledPart (fun _ => rfl) event)
  rw [entryOf, hidx, entryOf]
  rfl

theorem finalize_enabledPart (reporter : FullReporter) {event : Event}
    (hwallTime : E .wallTime = true) (peakMemoryUsage : ℕ) :
    reporter.finalize (event.enabledPart E) peakMemoryUsage
      = reporter.finalize event peakMemoryUsage := by
  have hlines : ((event.enabledPart E).funcTable.entries.flatMap
        fun entry => functionLine entry.function)
      = event.funcTable.entries.flatMap fun entry => functionLine entry.function :=
    List.flatMap_map _ _ _
  have hwall : (event.enabledPart E).cum .wallTime = event.cum .wallTime :=
    enabledValues_apply hwallTime event.cum
  rw [finalize, hlines, hwall]
  rfl

/-- A notification. -/
theorem notify_enabledPart (reporter : FullReporter) {event : Event}
    (hE : event.enabledMetrics = E) (hwallTime : E .wallTime = true) (peakMemoryUsage : ℕ) :
    (reporter.enabledPart E).notify (event.enabledPart E) peakMemoryUsage
      = ((reporter.notify event peakMemoryUsage).1,
          (reporter.notify event peakMemoryUsage).2.enabledPart E) := by
  subst hE
  have htype : (event.enabledPart event.enabledMetrics).type = event.type := rfl
  have hpush (reporter : FullReporter) :
      ({ reporter.enabledPart event.enabledMetrics with
          buffer := (reporter.enabledPart event.enabledMetrics).buffer
            ++ [entryOf (event.enabledPart event.enabledMetrics)] } : FullReporter)
        = ({ reporter with buffer := reporter.buffer ++ [entryOf event] } :
          FullReporter).enabledPart event.enabledMetrics := by
    simp [enabledPart, entryOf_enabledPart]
  rw [notify, notify, countCall_enabledPart, htype]
  set counted := reporter.countCall event
  split
  · show (ReporterCost.heavy, ((counted.enabledPart _).flushBuffer event.enabledMetrics).finalize
      (event.enabledPart event.enabledMetrics) peakMemoryUsage) = _
    rw [flushBuffer_enabledPart, finalize_enabledPart _ hwallTime]
    rfl
  · rw [hpush]
    set pushed : FullReporter := { counted with buffer := counted.buffer ++ [entryOf event] }
    have hlength : (pushed.enabledPart event.enabledMetrics).buffer.length = pushed.buffer.length :=
      List.length_map _
    dsimp only
    rw [hlength]
    split
    · rfl
    · show (ReporterCost.heavy, (pushed.enabledPart _).flushBuffer event.enabledMetrics) = _
      rw [flushBuffer_enabledPart]
      rfl

end FullReporter

/-! ## Any reporter -/

/-- What a notification says of the enabled metrics. -/
noncomputable def Notification.enabledPart (E : Metric → Bool) (n : Notification) : Notification :=
  { n with event := n.event.enabledPart E }

/-- What a reporter outputs: the text of its stream, the lines on the standard error stream and
the metadata. -/
structure ReportOutput where
  text : CStr
  stderr : CStr
  metadata : Option ReportMetadata

namespace ProfilerReporter

/-- What a reporter has output. -/
def shown : ProfilerReporter → ReportOutput
  | .full reporter => ⟨reporter.output, [], some reporter.metadata⟩
  | .fp reporter => ⟨reporter.output, [], none⟩
  | .trace reporter => ⟨reporter.output, reporter.stderr, none⟩

/-- What a reporter keeps of the enabled metrics. -/
noncomputable def enabledPart (E : Metric → Bool) : ProfilerReporter → ProfilerReporter
  | .full reporter => .full (reporter.enabledPart E)
  | .fp reporter => .fp reporter
  | .trace reporter => .trace (reporter.enabledPart E)

/-- The metrics that a reporter reads whatever is enabled are enabled: the wall time in a full
report, and the focus of a flat profile. -/
def Reads (E : Metric → Bool) : ProfilerReporter → Prop
  | .full _ => E .wallTime = true
  | .fp reporter => E reporter.focus = true
  | .trace _ => True

theorem shown_enabledPart (reporter : ProfilerReporter) :
    (reporter.enabledPart E).shown = reporter.shown := by
  cases reporter with
  | full reporter => rfl
  | fp reporter => rfl
  | trace reporter => rfl

theorem reads_of_step {reporter reporter' : ProfilerReporter} {n : Notification}
    (h : reporter.Reads E) (hstep : reporter.step n = .ok reporter') : reporter'.Reads E := by
  obtain ⟨notified, hnotify, hlast⟩ := bind_eq_ok_iff.mp hstep
  cases hlast
  cases reporter with
  | full reporter =>
    cases hnotify
    exact h
  | fp reporter =>
    obtain ⟨fpNotified, hfp, hlast⟩ := bind_eq_ok_iff.mp hnotify
    cases hlast
    exact (congrArg E (FpReporter.focus_of_notify hfp)).trans h
  | trace reporter =>
    obtain ⟨traceNotified, -, hlast⟩ := bind_eq_ok_iff.mp hnotify
    cases hlast
    exact trivial

/-- One notification. -/
theorem step_enabledPart {reporter : ProfilerReporter} (h : reporter.Reads E) {n : Notification}
    (hn : n.event.enabledMetrics = E) :
    (reporter.enabledPart E).step (n.enabledPart E) = (reporter.step n).map (enabledPart E) := by
  cases reporter with
  | full reporter =>
    have hnotify := reporter.notify_enabledPart hn h n.peakMemoryUsage
    exact congrArg (fun notified : ReporterCost × FullReporter =>
      Except.ok (ProfilerReporter.full notified.2)) hnotify
  | fp reporter =>
    have hnotify := FpReporter.notify_enabledPart h hn n.wallTime
    show (reporter.notify (n.event.enabledPart E) n.wallTime >>= _) >>= _ = _
    rw [hnotify]
    show _ = Except.map _ ((reporter.notify n.event n.wallTime >>= _) >>= _)
    cases reporter.notify n.event n.wallTime with
    | error die => rfl
    | ok notified => rfl
  | trace reporter =>
    have hnotify := reporter.notify_enabledPart hn
    show ((reporter.enabledPart E).notify (n.event.enabledPart E) >>= _) >>= _ = _
    rw [hnotify]
    show _ = Except.map _ ((reporter.notify n.event >>= _) >>= _)
    cases reporter.notify n.event with
    | error die => rfl
    | ok notified => rfl

/-- Any notifications. -/
theorem run_enabledPart {reporter : ProfilerReporter} (h : reporter.Reads E)
    {ns : List Notification} (hns : ∀ n ∈ ns, n.event.enabledMetrics = E) :
    (reporter.enabledPart E).run (ns.map (Notification.enabledPart E))
      = (reporter.run ns).map (enabledPart E) := by
  induction ns generalizing reporter with
  | nil => rfl
  | cons n ns ih =>
    obtain ⟨hn, hns⟩ := List.forall_mem_cons.mp hns
    rw [run, run, List.map_cons, runSteps, runSteps, step_enabledPart h hn]
    cases hstep : reporter.step n with
    | error die => rfl
    | ok reporter' => exact ih (reads_of_step h hstep) hns

/-- A reporter that has been created has nothing in its buffer. -/
theorem enabledPart_of_create {config : SpxConfig} {terminal : Terminal} {opens : Bool}
    {reporter : ProfilerReporter}
    (h : profilerReporterCreate config terminal opens = some reporter) :
    reporter.enabledPart E = reporter := by
  rw [profilerReporterCreate] at h
  cases hreport : config.report with
  | full =>
    rw [hreport] at h
    cases h
    rfl
  | flatProfile =>
    rw [hreport] at h
    cases h
    rfl
  | trace =>
    rw [hreport] at h
    obtain ⟨traceReporter, hcreate, rfl⟩ := Option.map_eq_some_iff.mp h
    exact congrArg ProfilerReporter.trace (TraceReporter.enabledPart_of_create hcreate)

/-- The configuration enables what its reporter reads. -/
theorem reads_of_create {inputs : Inputs} {config : SpxConfig} {cli : Bool}
    {sources : List ConfigSource} {terminal : Terminal} {opens : Bool}
    {reporter : ProfilerReporter}
    (h : profilerReporterCreate (spxConfigGet inputs config cli sources) terminal opens
      = some reporter) :
    reporter.Reads (spxConfigGet inputs config cli sources).enabledMetrics := by
  rw [profilerReporterCreate] at h
  cases hreport : (spxConfigGet inputs config cli sources).report with
  | full =>
    rw [hreport] at h
    cases h
    exact fixConfig_wallTime hreport
  | flatProfile =>
    rw [hreport] at h
    cases h
    exact fixConfig_fpFocus hreport
  | trace =>
    rw [hreport] at h
    obtain ⟨traceReporter, -, rfl⟩ := Option.map_eq_some_iff.mp h
    exact trivial

end ProfilerReporter

/-- The notifications of the events of a profile. -/
def notificationsOf (wallTime : ℕ → UInt64) (peakMemoryUsage : ℕ → ℕ) (events : List Event) :
    List Notification := events.mapIdx fun i event => ⟨event, wallTime i, peakMemoryUsage i⟩

theorem notificationsOf_map (wallTime : ℕ → UInt64) (peakMemoryUsage : ℕ → ℕ)
    (events : List Event) :
    notificationsOf wallTime peakMemoryUsage (events.map (Event.enabledPart E))
      = (notificationsOf wallTime peakMemoryUsage events).map (Notification.enabledPart E) := by
  apply List.ext_getElem (by simp [notificationsOf])
  intro i hi hi'
  simp [notificationsOf, Notification.enabledPart]

theorem forall_mem_notificationsOf (wallTime : ℕ → UInt64) (peakMemoryUsage : ℕ → ℕ)
    {events : List Event} (h : ∀ event ∈ events, event.enabledMetrics = E) :
    ∀ n ∈ notificationsOf wallTime peakMemoryUsage events, n.event.enabledMetrics = E := by
  intro n hn
  obtain ⟨i, hi, rfl⟩ := List.mem_mapIdx.mp hn
  exact h _ (List.getElem_mem hi)

/-- **The reports of two profiles with the same calls and the same values of the enabled metrics
are the same**, whatever the slots of the other metrics hold. -/
theorem reports_depend_on_enabled_metrics (inputs : Inputs) (config₀ : SpxConfig) (cli : Bool)
    (sources : List ConfigSource) (limits : Limits) (zendInlineHashFunc : String → UInt64)
    (wallTime : ℕ → UInt64) (peakMemoryUsage : ℕ → ℕ) (junk junk' : MetricValues) :
    let config := spxConfigGet inputs config₀ cli sources
    ∀ {terminal : Terminal} {opens : Bool} {reporter : ProfilerReporter},
      profilerReporterCreate config terminal opens = some reporter →
      ∀ {ops ops' : List TracerOp} {n : ℕ}, height 0 ops = some n → ops ≠ [] →
      List.Forall₂ (SameHook config.enabledMetrics) ops ops' →
      ∀ {ends ends' : ℕ → HookInput},
        (∀ i m, config.enabledMetrics m = true → (ends i).reading m = (ends' i).reading m) →
        ∃ q q',
          tracerProfile (spxProfilerTracerCreate limits zendInlineHashFunc config.maxDepth
              config.enabledMetrics junk) ops ends = .ok q ∧
            tracerProfile (spxProfilerTracerCreate limits zendInlineHashFunc config.maxDepth
              config.enabledMetrics junk') ops' ends' = .ok q' ∧
            (reporter.run (notificationsOf wallTime peakMemoryUsage q.notified)).map
                ProfilerReporter.shown
              = (reporter.run (notificationsOf wallTime peakMemoryUsage q'.notified)).map
                ProfilerReporter.shown := by
  intro config terminal opens reporter hcreate ops ops' n hops hne hsame ends ends' hends
  obtain ⟨q, q', hq, hq', hevents, hshows, hshows'⟩ := tracer_events_enabledPart limits
    zendInlineHashFunc config.maxDepth junk junk' hops hne hsame hends
  have hreads : reporter.Reads config.enabledMetrics := ProfilerReporter.reads_of_create hcreate
  have hshown {events : List Event}
      (hevents : ∀ event ∈ events, event.enabledMetrics = config.enabledMetrics) :
      (reporter.run (notificationsOf wallTime peakMemoryUsage events)).map ProfilerReporter.shown
        = (reporter.run (notificationsOf wallTime peakMemoryUsage
            (events.map (Event.enabledPart config.enabledMetrics)))).map
          ProfilerReporter.shown := by
    have hrun := ProfilerReporter.run_enabledPart hreads
      (forall_mem_notificationsOf wallTime peakMemoryUsage hevents)
    rw [ProfilerReporter.enabledPart_of_create hcreate, ← notificationsOf_map] at hrun
    rw [hrun]
    cases reporter.run (notificationsOf wallTime peakMemoryUsage events) with
    | error die => rfl
    | ok reporter' => exact congrArg Except.ok reporter'.shown_enabledPart.symm
  exact ⟨q, q', hq, hq', by rw [hshown hshows, hshown hshows', hevents]⟩

/-- The CPU time is not enabled by default. -/
theorem reports_depend_on_enabled_metrics_one_call :
    let inputs : Inputs := ⟨fun _ => none, fun _ => none, fun _ _ => none⟩
    let config := spxConfigGet inputs (defaultConfig true) true [.env]
    let limits := limitsInit fun _ => none
    let op (cpuTime : ℚ) : TracerOp :=
      .opening ⟨⟨"main", ""⟩, ⟨Function.update 0 .cpuTime cpuTime, .light⟩,
        ⟨fun _ => 0, fun _ => 0, 0, 0, 0, 0⟩⟩
    ∃ reporter q q',
      profilerReporterCreate config ⟨false, false⟩ true = some reporter ∧
        tracerProfile (spxProfilerTracerCreate limits (fun _ => 0) config.maxDepth
          config.enabledMetrics 0) [op 1] (fun _ => endAt 5) = .ok q ∧
        tracerProfile (spxProfilerTracerCreate limits (fun _ => 0) config.maxDepth
          config.enabledMetrics fun _ => 9) [op 2] (fun _ => endAt 5) = .ok q' ∧
        (reporter.run (notificationsOf (fun _ => 0) (fun _ => 0) q.notified)).map
            ProfilerReporter.shown
          = (reporter.run (notificationsOf (fun _ => 0) (fun _ => 0) q'.notified)).map
            ProfilerReporter.shown := by
  intro inputs config limits op
  have hsame : List.Forall₂ (SameHook config.enabledMetrics) [op 1] [op 2] := by
    refine .cons ⟨rfl, ?_⟩ .nil
    decide +kernel
  obtain ⟨reporter, hcreate⟩ :
      ∃ reporter, profilerReporterCreate config ⟨false, false⟩ true = some reporter := ⟨_, rfl⟩
  obtain ⟨q, q', h⟩ := reports_depend_on_enabled_metrics inputs (defaultConfig true) true
    [.env] limits (fun _ => 0) (fun _ => 0) (fun _ => 0) 0 (fun _ => 9)
    hcreate rfl (List.cons_ne_nil _ _) hsame (fun _ _ _ => rfl)
  exact ⟨reporter, q, q', hcreate, h⟩

end PhpSpx
