import PhpSpx.Profiler.Event
import PhpSpx.Text.StrBuilder

/-!
# The full reporter

`spx_reporter_full.c`: the events of a profile are kept in a buffer and written as
lines of text through a string builder, the functions at the end.  The stream is
the text written to it; it accepts every write.

A line is complete when it fits the room left in the string builder.  When it does
not, the functions that append to the builder leave out what does not fit, and
nothing tells the reporter.

* `FullReporter.text` — the text, if the buffers were flushed now.
* `RoomFor` — every line fits where it is written, told from the lengths alone.
* `full_report_complete_iff` — the report is complete exactly then.
-/

namespace PhpSpx

/-! ## Data -/

/-- `BUFFER_CAPACITY`. -/
def bufferCapacity : ℕ := 16384

/-- The capacity of the reporter's string builder. -/
def strBuilderCapacity : ℕ := 8 * 1024

/-- The room below which the string builder is printed. -/
def flushThreshold : ℕ := 128

/-- `buffer_entry_t`. -/
structure BufferEntry where
  functionIdx : ℕ
  start : Bool
  metricValues : MetricValues

/-- The members of `metadata_t` that the events of a profile change. -/
structure ReportMetadata where
  wallTimeMs : ℕ
  peakMemoryUsage : ℕ
  calledFunctionCount : ℕ
  callCount : ℕ
  recordedCallCount : ℕ
  enabledMetrics : Metric → Bool

/-- `full_reporter_t`, with the text written to its stream. -/
structure FullReporter where
  metadata : ReportMetadata
  output : CStr
  buffer : List BufferEntry
  strBuilder : StrBuilder

/-- `"[events]\\n"`. -/
def eventsHeader : CStr := "[events]\n".toList

/-- `"[functions]\\n"`. -/
def functionsHeader : CStr := "[functions]\n".toList

/-- `spx_reporter_full_create`, when nothing fails. -/
def spxReporterFullCreate : FullReporter where
  metadata := ⟨0, 0, 0, 0, 0, fun _ => false⟩
  output := eventsHeader
  buffer := []
  strBuilder := StrBuilder.create strBuilderCapacity

/-! ## Writing lines -/

/-- The metric fields of a line. -/
def appendMetrics (enabledMetrics : Metric → Bool) (values : MetricValues) :
    List Metric → StrBuilder → StrBuilder
  | [], b => b
  | m :: metrics, b =>
    if enabledMetrics m = false then appendMetrics enabledMetrics values metrics b
    else
      appendMetrics enabledMetrics values metrics
        (((b.appendChar ' ').2.appendDouble (values m) 4).2)

/-- One line of `flush_buffer`. -/
def appendEntry (enabledMetrics : Metric → Bool) (entry : BufferEntry) (b : StrBuilder) :
    StrBuilder :=
  let b := (b.appendLong (wrapLong entry.functionIdx)).2
  let b := (b.appendChar ' ').2
  let b := (b.appendChar (if entry.start then '1' else '0')).2
  let b := appendMetrics enabledMetrics entry.metricValues Metric.all b
  (b.appendStr ['\n']).2

/-- A stream and a string builder. -/
abbrev Sink := CStr × StrBuilder

/-- The body of the loop of `flush_buffer`. -/
def flushEntry (enabledMetrics : Metric → Bool) (sink : Sink) (entry : BufferEntry) : Sink :=
  let b := appendEntry enabledMetrics entry sink.2
  if b.remaining < flushThreshold then (sink.1 ++ b.text, b.reset) else (sink.1, b)

namespace FullReporter

/-- `flush_buffer`. -/
def flushBuffer (reporter : FullReporter) (enabledMetrics : Metric → Bool) : FullReporter :=
  let sink := reporter.buffer.foldl (flushEntry enabledMetrics)
    (reporter.output, reporter.strBuilder.reset)
  { reporter with
    output := if sink.2.size > 0 then sink.1 ++ sink.2.text else sink.1
    strBuilder := sink.2
    buffer := [] }

end FullReporter

/-- The line of a function in the report. -/
def functionLine (function : PhpFunction) : CStr :=
  function.className.toList ++ (if function.className.isEmpty then [] else "::".toList) ++
    function.funcName.toList ++ ['\n']

namespace FullReporter

/-- `finalize`; `peakMemoryUsage` is what the engine answers. -/
def finalize (reporter : FullReporter) (event : Event) (peakMemoryUsage : ℕ) : FullReporter :=
  { reporter with
    output := reporter.output ++ functionsHeader ++
      event.funcTable.entries.flatMap fun entry => functionLine entry.function
    metadata :=
      { reporter.metadata with
        peakMemoryUsage := peakMemoryUsage
        wallTimeMs := (truncLong (event.cum .wallTime / 1000)).toNat
        calledFunctionCount := event.funcTable.size
        enabledMetrics := event.enabledMetrics } }

/-- The index in the table of the callee of an event. -/
def calleeIdx (event : Event) : ℕ :=
  ((event.callee.bind fun i => event.funcTable.entries[i]?).map FuncTableEntry.idx).getD 0

/-- What an event leaves in the buffer. -/
def entryOf (event : Event) : BufferEntry where
  functionIdx := calleeIdx event
  start := event.type = .callStart
  metricValues := event.cum

/-- Count the end of a call. -/
def countCall (reporter : FullReporter) (event : Event) : FullReporter :=
  if event.type = .callEnd then
    { reporter with
      metadata :=
        { reporter.metadata with
          callCount := reporter.metadata.callCount + 1
          recordedCallCount := reporter.metadata.recordedCallCount + 1 } }
  else reporter

/-- `full_notify`. -/
def notify (reporter : FullReporter) (event : Event) (peakMemoryUsage : ℕ) :
    ReporterCost × FullReporter :=
  let reporter := reporter.countCall event
  if event.type = .finalize then
    (.heavy, (reporter.flushBuffer event.enabledMetrics).finalize event peakMemoryUsage)
  else
    let reporter := { reporter with buffer := reporter.buffer ++ [entryOf event] }
    if reporter.buffer.length < bufferCapacity then (.light, reporter)
    else (.heavy, reporter.flushBuffer event.enabledMetrics)

/-- The notifications of a profile: its call events, then the final one. -/
def run (events : List Event) (last : Event) (peakMemoryUsage : ℕ) : FullReporter :=
  let reporter := events.foldl (fun r event => (r.notify event peakMemoryUsage).2)
    spxReporterFullCreate
  (reporter.notify last peakMemoryUsage).2

end FullReporter

/-! ## The complete report -/

/-- The complete line of an entry: each field is what the string builder appends
when there is room. -/
def entryLine (enabledMetrics : Metric → Bool) (entry : BufferEntry) : CStr :=
  longText (wrapLong entry.functionIdx) ++ [' '] ++ [if entry.start then '1' else '0'] ++
    (Metric.all.filter fun m => enabledMetrics m).flatMap
      (fun m => [' '] ++ doubleText (entry.metricValues m) 4) ++
    ['\n']

/-- The complete report: one line for each call event, in order, and one for each
function. -/
def completeReport (enabledMetrics : Metric → Bool) (events : List Event) (last : Event) : CStr :=
  eventsHeader ++
    events.flatMap (fun event => entryLine enabledMetrics (FullReporter.entryOf event)) ++
    functionsHeader ++ last.funcTable.entries.flatMap fun entry => functionLine entry.function

/-- The number of events in the buffer after one more: a full buffer is emptied. -/
def nextBuffered (buffered : ℕ) : ℕ := if buffered + 1 = bufferCapacity then 0 else buffered + 1

/-- The size of the string builder after a line of `len` characters: it is printed when
little room is left, and emptied with the buffer. -/
def nextFill (fill buffered len : ℕ) : ℕ :=
  if buffered + 1 = bufferCapacity ∨ strBuilderCapacity - (fill + len) < flushThreshold then 0
  else fill + len

/-- Every line fits where it is written, for lines of given lengths: `fill` is the
size of the string builder and `buffered` the number of events in the buffer. -/
def RoomFor : ℕ → ℕ → List ℕ → Prop
  | _, _, [] => True
  | fill, buffered, len :: lens =>
    fill + len ≤ strBuilderCapacity ∧
      RoomFor (nextFill fill buffered len) (nextBuffered buffered) lens

/-- `RoomFor` can be computed. -/
def decidableRoomFor : (fill buffered : ℕ) → (lens : List ℕ) →
    Decidable (RoomFor fill buffered lens)
  | _, _, [] => .isTrue trivial
  | fill, buffered, len :: lens =>
    have := decidableRoomFor (nextFill fill buffered len) (nextBuffered buffered) lens
    inferInstanceAs (Decidable (_ ∧ _))

instance (fill buffered : ℕ) (lens : List ℕ) : Decidable (RoomFor fill buffered lens) :=
  decidableRoomFor fill buffered lens

/-! ## Lines -/

theorem appends_appendMetrics (enabledMetrics : Metric → Bool) (values : MetricValues)
    (metrics : List Metric) :
    StrBuilder.Appends (appendMetrics enabledMetrics values metrics)
      ((metrics.filter fun m => enabledMetrics m).flatMap
        fun m => [' '] ++ doubleText (values m) 4) := by
  induction metrics with
  | nil => exact StrBuilder.appends_nil
  | cons m metrics ih =>
    cases hm : enabledMetrics m with
    | false =>
      have hskip : appendMetrics enabledMetrics values (m :: metrics)
          = appendMetrics enabledMetrics values metrics := funext fun b => by
        rw [appendMetrics, if_pos hm]
      rw [hskip, List.filter_cons_of_neg (by simp [hm])]
      exact ih
    | true =>
      have hfield : appendMetrics enabledMetrics values (m :: metrics) = fun b =>
          appendMetrics enabledMetrics values metrics
            (((b.appendChar ' ').2.appendDouble (values m) 4).2) := funext fun b => by
        rw [appendMetrics, if_neg (by simp [hm])]
      rw [hfield, List.filter_cons_of_pos hm, List.flatMap_cons]
      exact ((StrBuilder.appends_appendChar ' ').comp
        (StrBuilder.appends_appendDouble (values m) 4)).comp ih

theorem appends_appendEntry (enabledMetrics : Metric → Bool) (entry : BufferEntry) :
    StrBuilder.Appends (appendEntry enabledMetrics entry) (entryLine enabledMetrics entry) :=
  ((((StrBuilder.appends_appendLong _).comp (StrBuilder.appends_appendChar ' ')).comp
    (StrBuilder.appends_appendChar _)).comp
    (appends_appendMetrics enabledMetrics entry.metricValues Metric.all)).comp
    (StrBuilder.appends_appendStr ['\n'])

/-! ## Texts that grow -/

/-- The text `t'` is `t` with `s` after it when `P` holds, and shorter than that
otherwise. -/
def Advances (P : Prop) (t t' s : CStr) : Prop :=
  (P → t' = t ++ s) ∧ (¬P → t'.length < t.length + s.length)

theorem Advances.length_le {P : Prop} {t t' s : CStr} (h : Advances P t t' s) :
    t'.length ≤ t.length + s.length := by
  by_cases hP : P
  · rw [h.1 hP, List.length_append]
  · exact le_of_lt (h.2 hP)

theorem Advances.trans {P Q : Prop} {t t' t'' s u : CStr} (h : Advances P t t' s)
    (h' : Advances Q t' t'' u) : Advances (P ∧ Q) t t'' (s ++ u) := by
  refine ⟨?_, ?_⟩
  · intro hPQ
    rw [h'.1 hPQ.2, h.1 hPQ.1, List.append_assoc]
  · intro hPQ
    have hle := h.length_le
    have hle' := h'.length_le
    rw [List.length_append]
    by_cases hP : P
    · have := h'.2 fun hQ => hPQ ⟨hP, hQ⟩
      omega
    · have := h.2 hP
      omega

theorem advances_iff {P : Prop} {t t' s : CStr} (h : Advances P t t' s) (u : CStr) :
    t' ++ u = t ++ s ++ u ↔ P := by
  rw [List.append_left_inj]
  refine ⟨?_, h.1⟩
  intro heq
  by_contra hP
  have := h.2 hP
  rw [heq, List.length_append] at this
  exact lt_irrefl _ this

/-- The text written to the stream and the one in the string builder. -/
def Sink.text (sink : Sink) : CStr := sink.1 ++ sink.2.text

/-- A line is appended, then the builder is printed or not. -/
theorem flushEntry_cases (enabledMetrics : Metric → Bool) (sink : Sink) (entry : BufferEntry) :
    let b := appendEntry enabledMetrics entry sink.2
    (b.capacity - b.size < flushThreshold ∧
        flushEntry enabledMetrics sink entry = (sink.1 ++ b.text, b.reset)) ∨
      (¬b.capacity - b.size < flushThreshold ∧
        flushEntry enabledMetrics sink entry = (sink.1, b)) := by
  intro b
  by_cases h : b.capacity - b.size < flushThreshold
  · exact .inl ⟨h, if_pos h⟩
  · exact .inr ⟨h, if_neg h⟩

/-- One line. -/
theorem advances_flushEntry (enabledMetrics : Metric → Bool) (sink : Sink) (entry : BufferEntry) :
    Advances (sink.2.size + (entryLine enabledMetrics entry).length ≤ sink.2.capacity)
      sink.text (flushEntry enabledMetrics sink entry).text (entryLine enabledMetrics entry) := by
  have happends := appends_appendEntry enabledMetrics entry
  have htext : (flushEntry enabledMetrics sink entry).text
      = sink.1 ++ (appendEntry enabledMetrics entry sink.2).text := by
    rcases flushEntry_cases enabledMetrics sink entry with ⟨-, h⟩ | ⟨-, h⟩
    · rw [h]
      exact List.append_nil _
    · rw [h]
      rfl
  rw [htext, Sink.text]
  refine ⟨?_, ?_⟩
  · intro hfits
    rw [(happends sink.2).2 hfits, List.append_assoc]
  · intro hfits
    have := happends.size_lt hfits
    simp only [StrBuilder.size] at this
    simp only [List.length_append]
    omega

/-- The builder after a line that fits. -/
theorem flushEntry_size {enabledMetrics : Metric → Bool} {sink : Sink} {entry : BufferEntry}
    (hfits : sink.2.size + (entryLine enabledMetrics entry).length ≤ sink.2.capacity) :
    (flushEntry enabledMetrics sink entry).2.size
      = if sink.2.capacity - (sink.2.size + (entryLine enabledMetrics entry).length)
            < flushThreshold then 0
        else sink.2.size + (entryLine enabledMetrics entry).length := by
  obtain ⟨hcap, htext⟩ := appends_appendEntry enabledMetrics entry sink.2
  have hsize : (appendEntry enabledMetrics entry sink.2).size
      = sink.2.size + (entryLine enabledMetrics entry).length := by
    rw [StrBuilder.size, htext hfits, List.length_append, StrBuilder.size]
  rw [← hsize, ← hcap]
  rcases flushEntry_cases enabledMetrics sink entry with ⟨hfull, h⟩ | ⟨hfull, h⟩
  · rw [h, if_pos hfull]
    rfl
  · rw [h, if_neg hfull]

theorem flushEntry_capacity (enabledMetrics : Metric → Bool) (sink : Sink) (entry : BufferEntry) :
    (flushEntry enabledMetrics sink entry).2.capacity = sink.2.capacity := by
  have hcap := (appends_appendEntry enabledMetrics entry sink.2).1
  rcases flushEntry_cases enabledMetrics sink entry with ⟨-, h⟩ | ⟨-, h⟩ <;> rw [h] <;> exact hcap

/-! ## Notifications -/

namespace FullReporter

/-- The stream and the string builder, if the buffer was written now. -/
def sink (reporter : FullReporter) (enabledMetrics : Metric → Bool) : Sink :=
  reporter.buffer.foldl (flushEntry enabledMetrics) (reporter.output, reporter.strBuilder.reset)

/-- Between two call events the buffer is not full. -/
structure Ready (reporter : FullReporter) : Prop where
  capacity : reporter.strBuilder.capacity = strBuilderCapacity
  notFull : reporter.buffer.length < bufferCapacity

theorem ready_create : spxReporterFullCreate.Ready := ⟨rfl, by decide⟩

theorem capacity_foldl (enabledMetrics : Metric → Bool) (entries : List BufferEntry)
    (sink : Sink) :
    (entries.foldl (flushEntry enabledMetrics) sink).2.capacity = sink.2.capacity := by
  induction entries generalizing sink with
  | nil => rfl
  | cons entry entries ih => exact (ih _).trans (flushEntry_capacity enabledMetrics sink entry)

theorem Ready.sink_capacity {reporter : FullReporter} (h : reporter.Ready)
    (enabledMetrics : Metric → Bool) :
    (reporter.sink enabledMetrics).2.capacity = strBuilderCapacity :=
  (capacity_foldl enabledMetrics _ _).trans h.capacity

/-- Flushing writes the buffers out. -/
theorem output_flushBuffer (reporter : FullReporter) (enabledMetrics : Metric → Bool) :
    (reporter.flushBuffer enabledMetrics).output = (reporter.sink enabledMetrics).text := by
  show (if (reporter.sink enabledMetrics).2.size > 0 then _ else _) = _
  split
  · rfl
  · rename_i hsize
    have hnil : (reporter.sink enabledMetrics).2.text = [] :=
      List.length_eq_zero_iff.mp (Nat.eq_zero_of_not_pos hsize)
    rw [Sink.text, hnil, List.append_nil]
    rfl

/-- The reporter with the entry of a call event in its buffer. -/
def buffered (reporter : FullReporter) (event : Event) : FullReporter :=
  { reporter.countCall event with buffer := reporter.buffer ++ [entryOf event] }

theorem countCall_sink (reporter : FullReporter) (event : Event) :
    (reporter.countCall event).output = reporter.output ∧
      (reporter.countCall event).strBuilder = reporter.strBuilder := by
  rw [countCall]
  split <;> exact ⟨rfl, rfl⟩

theorem length_buffered (reporter : FullReporter) (event : Event) :
    (reporter.buffered event).buffer.length = reporter.buffer.length + 1 := by
  rw [buffered, List.length_append]
  rfl

theorem notify_call (reporter : FullReporter) {event : Event} (htype : event.type ≠ .finalize)
    (peakMemoryUsage : ℕ) :
    (reporter.notify event peakMemoryUsage).2
      = if reporter.buffer.length + 1 < bufferCapacity then reporter.buffered event
        else (reporter.buffered event).flushBuffer event.enabledMetrics := by
  have hbuffer : (reporter.countCall event).buffer = reporter.buffer := by
    rw [countCall]
    split <;> rfl
  have hbody : reporter.notify event peakMemoryUsage
      = if (reporter.buffered event).buffer.length < bufferCapacity then
          (.light, reporter.buffered event)
        else (.heavy, (reporter.buffered event).flushBuffer event.enabledMetrics) := by
    rw [notify, if_neg htype, hbuffer]
    rfl
  rw [hbody, length_buffered]
  split <;> rfl

theorem sink_buffered (reporter : FullReporter) (event : Event) (enabledMetrics : Metric → Bool) :
    (reporter.buffered event).sink enabledMetrics
      = flushEntry enabledMetrics (reporter.sink enabledMetrics) (entryOf event) := by
  rw [sink, buffered, (reporter.countCall_sink event).1, (reporter.countCall_sink event).2,
    List.foldl_append]
  rfl

theorem Ready.capacity_buffered {reporter : FullReporter} (h : reporter.Ready) (event : Event) :
    (reporter.buffered event).strBuilder.capacity = strBuilderCapacity := by
  rw [buffered, (reporter.countCall_sink event).2]
  exact h.capacity

/-- After a flush the buffers are empty. -/
theorem ready_flushBuffer {reporter : FullReporter}
    (hcap : reporter.strBuilder.capacity = strBuilderCapacity)
    (enabledMetrics : Metric → Bool) : (reporter.flushBuffer enabledMetrics).Ready :=
  ⟨(capacity_foldl enabledMetrics _ _).trans hcap, Nat.succ_pos _⟩

theorem text_sink_flushBuffer (reporter : FullReporter) (enabledMetrics : Metric → Bool) :
    ((reporter.flushBuffer enabledMetrics).sink enabledMetrics).text
      = (reporter.sink enabledMetrics).text :=
  (List.append_nil _).trans (reporter.output_flushBuffer enabledMetrics)

/-- **Call events**: the text grows by their lines when there is room for each, and
by less otherwise. -/
theorem Ready.run {reporter : FullReporter} (h : reporter.Ready) {enabledMetrics : Metric → Bool}
    {events : List Event}
    (hevents : ∀ event ∈ events, event.type ≠ .finalize ∧ event.enabledMetrics = enabledMetrics)
    (peakMemoryUsage : ℕ) :
    let r := events.foldl (fun r event => (r.notify event peakMemoryUsage).2) reporter
    Advances
      (RoomFor (reporter.sink enabledMetrics).2.size reporter.buffer.length
        (events.map fun event => (entryLine enabledMetrics (entryOf event)).length))
      (reporter.sink enabledMetrics).text (r.sink enabledMetrics).text
      (events.flatMap fun event => entryLine enabledMetrics (entryOf event)) := by
  induction events generalizing reporter with
  | nil => exact ⟨fun _ => (List.append_nil _).symm, fun hroom => absurd trivial hroom⟩
  | cons event events ih =>
    obtain ⟨⟨htype, henabled⟩, hrest⟩ := List.forall_mem_cons.mp hevents
    set sink := reporter.sink enabledMetrics with hsink
    set line := entryLine enabledMetrics (entryOf event)
    set lens := events.map fun event => (entryLine enabledMetrics (entryOf event)).length
    have hcap : sink.2.capacity = strBuilderCapacity := h.sink_capacity enabledMetrics
    have hadvance : Advances (sink.2.size + line.length ≤ strBuilderCapacity) sink.text
        (flushEntry enabledMetrics sink (entryOf event)).text line :=
      hcap ▸ advances_flushEntry enabledMetrics sink (entryOf event)
    have hnotify := reporter.notify_call htype peakMemoryUsage
    rw [henabled] at hnotify
    rw [List.foldl_cons, List.map_cons, List.flatMap_cons, RoomFor]
    by_cases hfull : reporter.buffer.length + 1 = bufferCapacity
    · -- the buffer is full: it is written, and the builder is reset for the next one
      have hready := ready_flushBuffer (h.capacity_buffered event) enabledMetrics
      have hih := ih hready hrest
      rw [text_sink_flushBuffer, sink_buffered] at hih
      rw [if_neg (by omega)] at hnotify
      rw [hnotify, nextBuffered, if_pos hfull, nextFill, if_pos (.inl hfull)]
      exact hadvance.trans hih
    · -- the entry stays in the buffer
      have hready : (reporter.buffered event).Ready :=
        ⟨h.capacity_buffered event, by
          have := h.notFull
          rw [length_buffered]
          omega⟩
      have hih := ih hready hrest
      rw [sink_buffered, length_buffered] at hih
      rw [if_pos (by have := h.notFull; omega)] at hnotify
      have hfill (hfits : sink.2.size + line.length ≤ strBuilderCapacity) :
          nextFill sink.2.size reporter.buffer.length line.length
            = (flushEntry enabledMetrics sink (entryOf event)).2.size := by
        rw [flushEntry_size (hcap ▸ hfits), hcap, nextFill]
        simp only [hfull, false_or, line]
      rw [hnotify, nextBuffered, if_neg hfull, propext (and_congr_right fun hfits => by
        rw [hfill hfits])]
      exact hadvance.trans hih

/-- A whole profile: what is written for its events, then the functions. -/
theorem output_run {enabledMetrics : Metric → Bool} {events : List Event} {last : Event}
    (hevents : ∀ event ∈ events, event.type ≠ .finalize ∧ event.enabledMetrics = enabledMetrics)
    (hlast : last.type = .finalize ∧ last.enabledMetrics = enabledMetrics)
    (peakMemoryUsage : ℕ) :
    ∃ lines,
      (run events last peakMemoryUsage).output
        = lines ++ (functionsHeader ++
            last.funcTable.entries.flatMap fun entry => functionLine entry.function) ∧
      Advances
        (RoomFor 0 0 (events.map fun event => (entryLine enabledMetrics (entryOf event)).length))
        eventsHeader lines
        (events.flatMap fun event => entryLine enabledMetrics (entryOf event)) := by
  set r := events.foldl (fun r event => (r.notify event peakMemoryUsage).2) spxReporterFullCreate
    with hr
  have hcount : (r.countCall last) = r := if_neg (by rw [hlast.1]; decide)
  have hnotify : (r.notify last peakMemoryUsage).2
      = (r.flushBuffer enabledMetrics).finalize last peakMemoryUsage := by
    rw [notify, if_pos hlast.1, hcount, hlast.2]
  refine ⟨(r.sink enabledMetrics).text, ?_, ?_⟩
  · rw [run, ← hr, hnotify, finalize, output_flushBuffer, List.append_assoc]
  · have hrun := ready_create.run hevents peakMemoryUsage
    exact hrun

end FullReporter

/-- **The full report**: it is complete exactly when each line fits in the room that the string
builder has left when the line is written. -/
theorem full_report_complete_iff {enabledMetrics : Metric → Bool} {events : List Event}
    {last : Event}
    (hevents : ∀ event ∈ events, event.type ≠ .finalize ∧ event.enabledMetrics = enabledMetrics)
    (hlast : last.type = .finalize ∧ last.enabledMetrics = enabledMetrics)
    (peakMemoryUsage : ℕ) :
    (FullReporter.run events last peakMemoryUsage).output
        = completeReport enabledMetrics events last ↔
      RoomFor 0 0 (events.map fun event =>
        (entryLine enabledMetrics (FullReporter.entryOf event)).length) := by
  obtain ⟨lines, houtput, hadvance⟩ := FullReporter.output_run hevents hlast peakMemoryUsage
  rw [houtput, completeReport, List.append_assoc _ functionsHeader]
  exact advances_iff hadvance _

/-- An event of a profile with one function `f`, whose metrics all have the value `value`. -/
def oneFunctionEvent (type : EventType) (enabledMetrics : Metric → Bool) (value : ℚ) : Event where
  type := type
  enabledMetrics := enabledMetrics
  called := 1
  max := fun _ => value
  cum := fun _ => value
  funcTable := ⟨1, 65536, [⟨0, ⟨"f", ""⟩, FuncStats.zero⟩]⟩
  depth := 1
  caller := none
  callee := if type = .finalize then none else some 0
  inc := none
  exc := none

/-- One call, with the wall time only. -/
theorem full_report_complete_one_call :
    (FullReporter.run
        [oneFunctionEvent .callStart (· = .wallTime) 5, oneFunctionEvent .callEnd (· = .wallTime) 7.5]
        (oneFunctionEvent .finalize (· = .wallTime) 7.5) 0).output
      = "[events]\n0 1 5\n0 0 7.5\n[functions]\nf\n".toList :=
  ((full_report_complete_iff (fun event hmem => by
        simp only [List.mem_cons, List.not_mem_nil, or_false] at hmem
        rcases hmem with rfl | rfl <;> exact ⟨by decide, rfl⟩)
      ⟨rfl, rfl⟩ 0).mpr (by decide +kernel)).trans (by decide +kernel)

/-- `n` calls of `f`, with all the metrics enabled and six digits in each value. -/
def wideEvents (n : ℕ) : List Event :=
  (List.replicate n
    [oneFunctionEvent .callStart (fun _ => true) 100000,
      oneFunctionEvent .callEnd (fun _ => true) 100000]).flatten

/-- A line of 22 metrics has 158 characters here.  After 51 of them the string builder has room
for 134 more, which is not little enough for it to be printed: line 52 is cut. -/
theorem full_report_line_cut :
    (FullReporter.run (wideEvents 26) (oneFunctionEvent .finalize (fun _ => true) 100000) 0).output
      ≠ completeReport (fun _ => true) (wideEvents 26)
          (oneFunctionEvent .finalize (fun _ => true) 100000) := by
  have hroom : ¬RoomFor 0 0 ((wideEvents 26).map fun event =>
      (entryLine (fun _ => true) (FullReporter.entryOf event)).length) := by
    decide +kernel
  have hevents : ∀ event ∈ wideEvents 26,
      event.type ≠ .finalize ∧ event.enabledMetrics = fun _ => true := by
    intro event hmem
    simp only [wideEvents, List.mem_flatten, List.mem_replicate] at hmem
    obtain ⟨_, ⟨-, rfl⟩, hmem⟩ := hmem
    simp only [List.mem_cons, List.not_mem_nil, or_false] at hmem
    rcases hmem with rfl | rfl <;> exact ⟨by decide, rfl⟩
  have hlast : (oneFunctionEvent .finalize (fun _ => true) 100000).type = .finalize ∧
      (oneFunctionEvent .finalize (fun _ => true) 100000).enabledMetrics = fun _ => true :=
    ⟨rfl, rfl⟩
  obtain ⟨lines, houtput, hadvance⟩ := FullReporter.output_run hevents hlast 0
  intro heq
  rw [houtput, completeReport, List.append_assoc _ functionsHeader] at heq
  exact hroom ((advances_iff hadvance _).mp heq)

end PhpSpx
