import PhpSpx.Profiler.EventStream
import PhpSpx.Reporter.Trace

/-!
# The buffer of the trace reporter

The array of entries of `spx_reporter_trace.c`.  An entry is reused without being cleared, so
the one of a call start holds the costs of an older call end, and its function is read through
a pointer into the function table when the buffer is flushed.

* `BufferedTraceReporter.notify` — `trace_notify` over the array.
* `BufferedTraceReporter.Shows` — the array holds the buffer of a `TraceReporter`.
* `TraceReporter.Printed` — what has been printed and what is still to print.
* `trace_output_same` — whole streams of events.
-/

namespace PhpSpx

open Lib

/-! ## State -/

/-- What stops a notification: the undefined read of a pointer or write to the array, or a row
that does not fit. -/
inductive TraceDie where
  | undefined
  | fmt (d : FmtDie)
  deriving DecidableEq, Repr

/-- `buffer_entry_t` of the trace reporter in memory; its `function` points into the entry of
the function table at that index. -/
structure TraceSlot where
  eventType : EventType
  function : ℕ
  depth : ℕ
  cumMetricValues : MetricValues
  incMetricValues : MetricValues
  excMetricValues : MetricValues

/-- `trace_reporter_t` with its array of entries. -/
structure BufferedTraceReporter where
  fileName : CStr
  safe : Bool
  first : Bool
  bufferSize : ℕ
  buffer : ℕ → TraceSlot
  output : CStr
  stderr : CStr

namespace TraceSlot

/-- The writes of `trace_notify` to an entry; none when a pointer of the event is NULL. -/
def write (slot : TraceSlot) (event : Event) : Option TraceSlot :=
  event.callee.bind fun function =>
    let slot :=
      { slot with
        eventType := event.type
        function
        depth := event.depth
        cumMetricValues := event.cum }
    if event.type = .callEnd then
      event.inc.bind fun incMetricValues =>
        event.exc.map fun excMetricValues => { slot with incMetricValues, excMetricValues }
    else some slot

/-- What `flush_buffer` gives to `print_row`, with the functions of the table. -/
def read (slot : TraceSlot) (functions : List PhpFunction) : Option TraceBufferEntry :=
  (functions[slot.function]?).map fun function =>
    { eventType := slot.eventType
      function
      depth := slot.depth
      cumMetricValues := slot.cumMetricValues
      incMetricValues := if slot.eventType = .callEnd then some slot.incMetricValues else none
      excMetricValues := if slot.eventType = .callEnd then some slot.excMetricValues else none }

/-- The row of an entry. -/
def printRow (enabledMetrics : Metric → Bool) (functions : List PhpFunction) (slot : TraceSlot) :
    Except TraceDie CStr :=
  match slot.read functions with
  | none => .error .undefined
  | some entry => (TraceReporter.printRow enabledMetrics entry).mapError .fmt

end TraceSlot

namespace BufferedTraceReporter

/-- `spx_reporter_trace_create`; `junk` is what `malloc` left in the array. -/
def create (junk : ℕ → TraceSlot) (fileName : Option CStr) (safe opens : Bool) :
    Option BufferedTraceReporter :=
  let fileName := fileName.getD "spx_trace.txt.gz".toList
  if isSafeTracePath fileName = false then none
  else if opens = false then none
  else some ⟨fileName, safe, true, 0, junk, [], []⟩

/-- `flush_buffer`.  Flushing the stream after a row does not change what is written to it. -/
def flushBuffer (reporter : BufferedTraceReporter) (enabledMetrics : Metric → Bool)
    (functions : List PhpFunction) : Except TraceDie BufferedTraceReporter := do
  let header ←
    (if reporter.first then TraceReporter.printHeader enabledMetrics else .ok []).mapError .fmt
  let rows ← (List.range reporter.bufferSize).mapM fun i =>
    (reporter.buffer i).printRow enabledMetrics functions
  .ok
    { reporter with
      first := false
      bufferSize := 0
      output := reporter.output ++ header ++ rows.flatten }

/-- The part of `trace_notify` that fills an entry. -/
def store (reporter : BufferedTraceReporter) (event : Event) :
    Except TraceDie BufferedTraceReporter :=
  if event.type = .finalize then .ok reporter
  else if traceBufferCapacity ≤ reporter.bufferSize then .error .undefined
  else
    match (reporter.buffer reporter.bufferSize).write event with
    | none => .error .undefined
    | some slot =>
        .ok
          { reporter with
            bufferSize := reporter.bufferSize + 1
            buffer := Function.update reporter.buffer reporter.bufferSize slot }

/-- `trace_notify`. -/
def notify (reporter : BufferedTraceReporter) (event : Event) :
    Except TraceDie (ReporterCost × BufferedTraceReporter) := do
  let reporter ← reporter.store event
  if event.type ≠ .finalize ∧ reporter.bufferSize < traceBufferCapacity ∧ reporter.safe = false
  then .ok (.light, reporter)
  else
    let reporter ← reporter.flushBuffer event.enabledMetrics event.funcTable.functions
    .ok
      (.heavy,
        if event.type = .finalize then
          { reporter with
            stderr := reporter.stderr ++ TraceReporter.fileLine reporter.fileName }
        else reporter)

/-- A notification for each event. -/
def notifyAll (events : List Event) (reporter : BufferedTraceReporter) :
    Except TraceDie BufferedTraceReporter :=
  runSteps (fun reporter event => (reporter.notify event).map Prod.snd) events reporter

/-! ## The array holds the buffer -/

/-- The entries up to `bufferSize` are those of the buffer, whatever the others hold. -/
structure Shows (s : BufferedTraceReporter) (r : TraceReporter) (functions : List PhpFunction) :
    Prop where
  fileName : s.fileName = r.fileName
  safe : s.safe = r.safe
  first : s.first = r.first
  output : s.output = r.output
  stderr : s.stderr = r.stderr
  size : s.bufferSize = r.buffer.length
  entries : ∀ (i : ℕ) (entry : TraceBufferEntry), r.buffer[i]? = some entry →
    (s.buffer i).read functions = some entry

/-- What is read through the pointer of an entry stays when functions join the table. -/
theorem read_of_prefix {slot : TraceSlot} {functions functions' : List PhpFunction}
    {entry : TraceBufferEntry} (h : slot.read functions = some entry)
    (hgrown : functions <+: functions') : slot.read functions' = some entry := by
  obtain ⟨function, hfunction, rfl⟩ := Option.map_eq_some_iff.mp h
  obtain ⟨more, rfl⟩ := hgrown
  have hlt := (List.getElem?_eq_some_iff.mp hfunction).1
  rw [TraceSlot.read, List.getElem?_append_left hlt, hfunction]
  rfl

/-- The writes of a call event replace all that its row is made of. -/
theorem write_read (slot : TraceSlot) {event : Event} (hwell : event.WellFormed)
    (hcall : event.type ≠ .finalize) :
    ∃ slot', slot.write event = some slot' ∧
      slot'.read event.funcTable.functions = some (TraceReporter.entryOf event) := by
  obtain ⟨i, hi, hlt⟩ := hwell.callee hcall
  have hentries : i < event.funcTable.entries.length := by
    rwa [EventFuncTable.functions, List.length_map] at hlt
  have hfunction : event.funcTable.functions[i]? = some (TraceReporter.calleeFunction event) := by
    simp [EventFuncTable.functions, TraceReporter.calleeFunction, hi, hentries]
  by_cases hend : event.type = .callEnd
  · obtain ⟨inc, exc, hinc, hexc⟩ := hwell.costs hend
    refine ⟨⟨event.type, i, event.depth, event.cum, inc, exc⟩, ?_, ?_⟩
    · simp [TraceSlot.write, hi, hend, hinc, hexc]
    · simp [TraceSlot.read, hfunction, TraceReporter.entryOf, hend, hinc, hexc]
  · refine ⟨⟨event.type, i, event.depth, event.cum, slot.incMetricValues, slot.excMetricValues⟩,
      ?_, ?_⟩
    · simp [TraceSlot.write, hi, hend]
    · simp [TraceSlot.read, hfunction, TraceReporter.entryOf, hend]

section Shows

variable {s : BufferedTraceReporter} {r : TraceReporter} {functions : List PhpFunction}
  {event : Event}

theorem Shows.grown (h : s.Shows r functions) {functions' : List PhpFunction}
    (hgrown : functions <+: functions') : s.Shows r functions' where
  fileName := h.fileName
  safe := h.safe
  first := h.first
  output := h.output
  stderr := h.stderr
  size := h.size
  entries i entry hentry := read_of_prefix (h.entries i entry hentry) hgrown

/-- Filling an entry puts the event in the buffer. -/
theorem Shows.store (h : s.Shows r functions) (hroom : r.buffer.length < traceBufferCapacity)
    (hwell : event.WellFormed) (hgrown : functions <+: event.funcTable.functions) :
    ∃ s', s.store event = .ok s' ∧ s'.Shows (r.push event) event.funcTable.functions := by
  have hshows := h.grown hgrown
  unfold BufferedTraceReporter.store TraceReporter.push
  by_cases hfinal : event.type = .finalize
  · rw [if_pos hfinal, if_pos hfinal]
    exact ⟨s, rfl, hshows⟩
  · obtain ⟨slot, hwrite, hread⟩ := write_read (s.buffer s.bufferSize) hwell hfinal
    rw [if_neg hfinal, if_neg (by rw [h.size]; exact Nat.not_le.mpr hroom), hwrite, if_neg hfinal]
    refine ⟨_, rfl, h.fileName, h.safe, h.first, h.output, h.stderr, ?_, ?_⟩
    · simp [h.size]
    · intro i entry hentry
      dsimp only at hentry ⊢
      rcases Nat.lt_or_ge i r.buffer.length with hi | hi
      · rw [List.getElem?_append_left hi] at hentry
        rw [Function.update_of_ne (by rw [h.size]; exact hi.ne)]
        exact hshows.entries i entry hentry
      · rw [List.getElem?_append_right hi, List.getElem?_singleton] at hentry
        split_ifs at hentry with hlast
        obtain rfl : i = s.bufferSize := by
          rw [h.size]
          omega
        rwa [Function.update_self, ← hentry]

/-- Flushing the array prints the rows of the buffer. -/
theorem Shows.flushBuffer (h : s.Shows r functions) (enabledMetrics : Metric → Bool) :
    Agree (fun d d' => d' = .fmt d) (fun r' s' => s'.Shows r' functions ∧ r'.buffer = [])
      (r.flushBuffer enabledMetrics) (s.flushBuffer enabledMetrics functions) := by
  have hheader := agree_mapError TraceDie.fmt (r.firstHeader enabledMetrics)
  have hrows : List.Forall₂
      (fun entry i => Agree (fun d d' => d' = TraceDie.fmt d) (· = ·)
        (TraceReporter.printRow enabledMetrics entry)
        ((s.buffer i).printRow enabledMetrics functions))
      r.buffer (List.range s.bufferSize) := by
    rw [List.forall₂_iff_get]
    refine ⟨by rw [List.length_range, h.size], ?_⟩
    intro i hi hi'
    have hentry := h.entries i _ (List.getElem?_eq_getElem hi)
    rw [List.get_eq_getElem, List.get_eq_getElem, List.getElem_range, TraceSlot.printRow, hentry]
    exact agree_mapError _ _
  unfold TraceReporter.flushBuffer BufferedTraceReporter.flushBuffer
  rw [TraceReporter.firstHeader, ← h.first] at hheader
  rw [TraceReporter.firstHeader, ← h.first]
  apply hheader.bind
  rintro header _ rfl
  apply (Agree.mapM hrows).bind
  intro rows rows' heq
  rw [List.forall₂_eq_eq_eq] at heq
  subst heq
  refine .ok ⟨⟨h.fileName, h.safe, rfl, ?_, h.stderr, rfl, ?_⟩, rfl⟩
  · dsimp only
    rw [h.output]
  · intro i entry hentry
    simp at hentry

/-- The line written at the end of the profile. -/
theorem Shows.finished (h : s.Shows r functions) (event : Event) :
    Shows
      (if event.type = .finalize then
        { s with stderr := s.stderr ++ TraceReporter.fileLine s.fileName } else s)
      (if event.type = .finalize then
        { r with stderr := r.stderr ++ TraceReporter.fileLine r.fileName } else r)
      functions := by
  split
  · refine ⟨h.fileName, h.safe, h.first, h.output, ?_, h.size, h.entries⟩
    dsimp only
    rw [h.stderr, h.fileName]
  · exact h

/-- **A notification over the array** is one over the buffer. -/
theorem Shows.notify (h : s.Shows r functions) (hroom : r.buffer.length < traceBufferCapacity)
    (hwell : event.WellFormed) (hgrown : functions <+: event.funcTable.functions) :
    Agree (fun d d' => d' = .fmt d)
      (fun a a' => a'.1 = a.1 ∧ a'.2.Shows a.2 event.funcTable.functions ∧
        a.2.buffer.length < traceBufferCapacity)
      (r.notify event) (s.notify event) := by
  obtain ⟨s', hstore, hs'⟩ := h.store hroom hwell hgrown
  have hpos : 0 < traceBufferCapacity := by decide
  unfold TraceReporter.notify BufferedTraceReporter.notify
  rw [hstore]
  dsimp only [Bind.bind, Except.bind]
  rw [hs'.size, hs'.safe]
  by_cases hlight : event.type ≠ .finalize ∧
      (r.push event).buffer.length < traceBufferCapacity ∧ (r.push event).safe = false
  · rw [if_pos hlight, if_pos hlight]
    exact .ok ⟨rfl, hs', hlight.2.1⟩
  · rw [if_neg hlight, if_neg hlight]
    apply (hs'.flushBuffer event.enabledMetrics).bind
    rintro r₁ s₁ ⟨hs₁, hempty⟩
    have hroom₁ : r₁.buffer.length < traceBufferCapacity := by rwa [hempty]
    refine .ok ⟨rfl, ?_, ?_⟩
    · exact hs₁.finished event
    · dsimp only
      split
      · exact hroom₁
      · exact hroom₁

/-- **Notifications over the array** are those over the buffer, whatever the number of times
it is filled. -/
theorem Shows.notifyAll (h : s.Shows r functions) (hroom : r.buffer.length < traceBufferCapacity)
    {enabledMetrics : Metric → Bool} {events : List Event}
    (hevents : Consistent enabledMetrics events)
    (hgrown : ∀ event ∈ events, functions <+: event.funcTable.functions) :
    Agree (fun d d' => d' = .fmt d) (fun r' s' => s'.output = r'.output)
      (r.notifyAll events) (s.notifyAll events) := by
  induction events generalizing s r functions with
  | nil => exact .ok h.output
  | cons event events ih =>
    have hwell := hevents.wellFormed event List.mem_cons_self
    have hnotify := h.notify hroom hwell (hgrown event List.mem_cons_self)
    obtain ⟨hlater, hpairs⟩ := List.pairwise_cons.mp hevents.grows
    have hrest : Consistent enabledMetrics events :=
      ⟨fun e he => hevents.enabledMetrics e (List.mem_cons_of_mem _ he),
        fun e he => hevents.wellFormed e (List.mem_cons_of_mem _ he), hpairs⟩
    have hstep : Agree (fun d d' => d' = .fmt d)
        (fun r' s' => s'.Shows r' event.funcTable.functions ∧
          r'.buffer.length < traceBufferCapacity)
        ((r.notify event).map Prod.snd) ((s.notify event).map Prod.snd) :=
      hnotify.map fun a a' ha => ha.2
    apply hstep.bind
    rintro r' s' ⟨hs', hroom'⟩
    exact ih hs' hroom' hrest hlater

end Shows

end BufferedTraceReporter

/-! ## What is printed -/

namespace TraceReporter

variable {enabledMetrics : Metric → Bool} {header : CStr} {row : TraceBufferEntry → CStr}
  {entries : List TraceBufferEntry} {r : TraceReporter} {event : Event}

/-- What is printed and what is still to print are the header and the rows of the entries. -/
def Printed (header : CStr) (row : TraceBufferEntry → CStr) (entries : List TraceBufferEntry)
    (r : TraceReporter) : Prop :=
  r.output ++ (if r.first then header else []) ++ (r.buffer.map row).flatten =
    header ++ (entries.map row).flatten

/-- The entry of a call event. -/
def entriesOf (event : Event) : List TraceBufferEntry :=
  if event.type = .finalize then [] else [entryOf event]

theorem mapM_printRow (hrow : ∀ entry, printRow enabledMetrics entry = .ok (row entry))
    (entries : List TraceBufferEntry) :
    entries.mapM (printRow enabledMetrics) = .ok (entries.map row) := by
  induction entries with
  | nil => rfl
  | cons entry entries ih =>
    rw [List.mapM_cons, hrow, ih]
    rfl

theorem flushBuffer_eq (r : TraceReporter) (hheader : printHeader enabledMetrics = .ok header)
    (hrow : ∀ entry, printRow enabledMetrics entry = .ok (row entry)) :
    r.flushBuffer enabledMetrics = .ok
      { r with
        first := false
        buffer := []
        output := r.output ++ (if r.first then header else []) ++ (r.buffer.map row).flatten } := by
  have hfirst : r.firstHeader enabledMetrics = .ok (if r.first then header else []) := by
    rw [firstHeader, hheader]
    split <;> rfl
  rw [flushBuffer, hfirst, mapM_printRow hrow]
  rfl

theorem Printed.push (h : r.Printed header row entries) (event : Event) :
    (r.push event).Printed header row (entries ++ entriesOf event) := by
  unfold TraceReporter.push entriesOf
  split
  · rwa [List.append_nil]
  · unfold Printed at h ⊢
    simp only [List.map_append, List.flatten_append, ← List.append_assoc, h]

/-- **A notification** prints the rows that are still to print, or keeps them. -/
theorem Printed.notify (h : r.Printed header row entries)
    (hheader : printHeader event.enabledMetrics = .ok header)
    (hrow : ∀ entry, printRow event.enabledMetrics entry = .ok (row entry)) :
    ∃ cost r', r.notify event = .ok (cost, r') ∧
      r'.Printed header row (entries ++ entriesOf event) ∧
      (event.type = .finalize → r'.output = header ++ ((entries.map row).flatten)) := by
  have hpush := h.push event
  unfold TraceReporter.notify
  by_cases hlight : event.type ≠ .finalize ∧
      (r.push event).buffer.length < traceBufferCapacity ∧ (r.push event).safe = false
  · rw [if_pos hlight]
    exact ⟨_, _, rfl, hpush, fun hfinal => absurd hfinal hlight.1⟩
  · rw [if_neg hlight, flushBuffer_eq _ hheader hrow]
    refine ⟨_, _, rfl, ?_, ?_⟩
    · split
      · unfold Printed at hpush ⊢
        simpa using hpush
      · unfold Printed at hpush ⊢
        simpa using hpush
    · intro hfinal
      rw [if_pos hfinal]
      rw [entriesOf, if_pos hfinal, List.append_nil] at hpush
      exact hpush

theorem Printed.notifyAll (h : r.Printed header row entries)
    (hheader : printHeader enabledMetrics = .ok header)
    (hrow : ∀ entry, printRow enabledMetrics entry = .ok (row entry)) {events : List Event}
    (hevents : ∀ event ∈ events, event.enabledMetrics = enabledMetrics) :
    ∃ r', r.notifyAll events = .ok r' ∧
      r'.Printed header row (entries ++ events.flatMap entriesOf) := by
  induction events generalizing r entries with
  | nil => exact ⟨r, rfl, by simpa using h⟩
  | cons event events ih =>
    have hmetrics := hevents event List.mem_cons_self
    obtain ⟨cost, r₁, hr₁, hprinted, -⟩ :=
      h.notify (hmetrics ▸ hheader) (by rwa [hmetrics])
    obtain ⟨r', hr', hrest⟩ := ih hprinted fun e he => hevents e (List.mem_cons_of_mem _ he)
    refine ⟨r', ?_, ?_⟩
    · unfold TraceReporter.notifyAll at hr' ⊢
      rw [runSteps, hr₁]
      exact hr'
    · rwa [List.flatMap_cons, ← List.append_assoc]

/-- When the header does not fit, nothing is printed before that is found out. -/
theorem notify_of_header_error {d : FmtDie} (hfirst : r.first = true)
    (hheader : printHeader event.enabledMetrics = .error d) :
    (event.type ≠ .finalize ∧ ∃ r', r.notify event = .ok (.light, r') ∧ r'.first = true) ∨
      r.notify event = .error d := by
  have hpush : (r.push event).first = true := by
    unfold TraceReporter.push
    split <;> exact hfirst
  unfold TraceReporter.notify
  by_cases hlight : event.type ≠ .finalize ∧
      (r.push event).buffer.length < traceBufferCapacity ∧ (r.push event).safe = false
  · rw [if_pos hlight]
    exact .inl ⟨hlight.1, _, rfl, hpush⟩
  · rw [if_neg hlight, flushBuffer, firstHeader, if_pos hpush, hheader]
    exact .inr rfl

theorem notifyAll_of_header_error {d : FmtDie} (hfirst : r.first = true)
    (hheader : printHeader enabledMetrics = .error d) {events : List Event} {final : Event}
    (hevents : ∀ event ∈ events ++ [final], event.enabledMetrics = enabledMetrics)
    (hfinal : final.type = .finalize) : r.notifyAll (events ++ [final]) = .error d := by
  induction events generalizing r with
  | nil =>
    have hmetrics := hevents final (List.mem_singleton_self final)
    have hlast := notify_of_header_error hfirst (hmetrics ▸ hheader)
    rcases hlast with ⟨hcall, -⟩ | hlast
    · exact absurd hfinal hcall
    · unfold TraceReporter.notifyAll
      rw [List.nil_append, runSteps, hlast]
      rfl
  | cons event events ih =>
    have hmetrics := hevents event List.mem_cons_self
    rcases notify_of_header_error hfirst (hmetrics ▸ hheader) with ⟨-, r', hr', hfirst'⟩ | herror
    · have hlater := ih hfirst' fun e he => hevents e (List.mem_cons_of_mem _ he)
      unfold TraceReporter.notifyAll at hlater ⊢
      rw [List.cons_append, runSteps, hr']
      exact hlater
    · unfold TraceReporter.notifyAll
      rw [List.cons_append, runSteps, herror]
      rfl

theorem flatMap_entriesOf (events : List Event) :
    events.flatMap entriesOf =
      (events.filter fun event => event.type ≠ .finalize).map entryOf := by
  induction events with
  | nil => rfl
  | cons event events ih =>
    rw [List.flatMap_cons, ih, entriesOf]
    by_cases hfinal : event.type = .finalize
    · simp [hfinal]
    · simp [hfinal]

/-- **Events that end with the finalization** leave the rows printed directly. -/
theorem notifyAll_eq_printDirectly (hfirst : r.first = true) (houtput : r.output = [])
    (hbuffer : r.buffer = []) {events : List Event} {final : Event}
    (hevents : ∀ event ∈ events ++ [final], event.enabledMetrics = enabledMetrics)
    (hfinal : final.type = .finalize) :
    (r.notifyAll (events ++ [final])).map TraceReporter.output =
      printDirectly enabledMetrics (events ++ [final]) := by
  cases hheader : printHeader enabledMetrics with
  | error d =>
    rw [notifyAll_of_header_error hfirst hheader hevents hfinal, printDirectly, hheader]
    rfl
  | ok header =>
    have hfits := (succeeds_printHeader_iff enabledMetrics).mp ⟨header, hheader⟩
    choose row hrow using fun entry => (succeeds_printRow_iff enabledMetrics entry).mpr hfits
    have hstart : r.Printed header row [] := by
      simp [Printed, hfirst, houtput, hbuffer]
    have hcalls : ∀ event ∈ events, event.enabledMetrics = enabledMetrics :=
      fun event he => hevents event (List.mem_append_left _ he)
    have hlast := hevents final (by simp)
    obtain ⟨r₁, hr₁, hprinted⟩ := hstart.notifyAll hheader hrow hcalls
    obtain ⟨cost, r₂, hr₂, -, houtput₂⟩ := hprinted.notify (hlast ▸ hheader) (by rwa [hlast])
    have hrun : r.notifyAll (events ++ [final]) = .ok r₂ := by
      unfold TraceReporter.notifyAll at hr₁ ⊢
      rw [runSteps_append, hr₁, Except.bind, runSteps, hr₂]
      rfl
    have hdirect : printDirectly enabledMetrics (events ++ [final]) =
        .ok (header ++ ((events.flatMap entriesOf).map row).flatten) := by
      have hrows := mapM_printRow hrow (events.flatMap entriesOf)
      rw [flatMap_entriesOf, List.mapM_map] at hrows
      have hdrop : (events ++ [final]).filter (fun event => event.type ≠ .finalize) =
          events.filter fun event => event.type ≠ .finalize := by
        simp [hfinal]
      rw [printDirectly, hheader, hdrop, flatMap_entriesOf]
      exact congrArg (fun rows => rows >>= fun rows => .ok (header ++ rows.flatten)) hrows
    rw [hrun, hdirect]
    exact congrArg Except.ok (houtput₂ hfinal)

end TraceReporter

/-! ## Safe and buffered reporters -/

namespace BufferedTraceReporter

theorem create_eq_some {junk : ℕ → TraceSlot} {fileName : Option CStr} {safe opens : Bool}
    {s : BufferedTraceReporter} (h : create junk fileName safe opens = some s)
    (functions : List PhpFunction) :
    s.Shows ⟨s.fileName, safe, true, [], [], []⟩ functions := by
  rw [create] at h
  split_ifs at h
  obtain rfl := Option.some.inj h
  refine ⟨rfl, rfl, rfl, rfl, rfl, rfl, ?_⟩
  intro i entry hentry
  exact nomatch hentry

/-- A reporter prints the rows of the events as if each was printed directly. -/
theorem notifyAll_eq_printDirectly {junk : ℕ → TraceSlot} {fileName : Option CStr}
    {safe opens : Bool} {s : BufferedTraceReporter} (hs : create junk fileName safe opens = some s)
    {enabledMetrics : Metric → Bool} {events : List Event} {final : Event}
    (hevents : Consistent enabledMetrics (events ++ [final])) (hfinal : final.type = .finalize) :
    (s.notifyAll (events ++ [final])).map BufferedTraceReporter.output =
      (TraceReporter.printDirectly enabledMetrics (events ++ [final])).mapError .fmt := by
  have hroom : 0 < traceBufferCapacity := by decide
  have hrun := (create_eq_some hs []).notifyAll hroom hevents fun _ _ => List.nil_prefix
  have hagree := (hrun.map (S := (· = ·)) fun r' s' h => h.symm).eq_mapError
  rw [hagree, TraceReporter.notifyAll_eq_printDirectly rfl rfl rfl hevents.enabledMetrics hfinal]

/-- A profile of the tracing profiler is printed as if each of its events was. -/
theorem tracer_output_eq_printDirectly (limits : Limits) (zendInlineHashFunc : String → UInt64)
    (maxDepth : ℕ) (enabledMetrics : Metric → Bool) (values : MetricValues) {ops : List TracerOp}
    {n : ℕ} (hops : height 0 ops = some n) (inputs : ℕ → HookInput) {junk : ℕ → TraceSlot}
    {fileName : Option CStr} {safe opens : Bool} {s : BufferedTraceReporter}
    (hs : create junk fileName safe opens = some s) :
    ∃ q, tracerProfile
        (spxProfilerTracerCreate limits zendInlineHashFunc maxDepth enabledMetrics values) ops inputs
        = .ok q ∧
      (s.notifyAll q.notified).map BufferedTraceReporter.output =
        (TraceReporter.printDirectly enabledMetrics q.notified).mapError .fmt := by
  obtain ⟨q, events, final, hq, hnotified, hfinal, hconsistent⟩ :=
    tracer_events_consistent limits zendInlineHashFunc maxDepth enabledMetrics values hops inputs
  refine ⟨q, hq, ?_⟩
  rw [hnotified]
  exact notifyAll_eq_printDirectly hs hconsistent hfinal

/-- **Safe and buffered trace outputs are the same**, and they are the rows printed directly,
for every stream of events of a profile that ends with the finalization. -/
theorem trace_output_same {enabledMetrics : Metric → Bool} {events : List Event} {final : Event}
    (hevents : Consistent enabledMetrics (events ++ [final])) (hfinal : final.type = .finalize)
    {junk junk' : ℕ → TraceSlot} {fileName fileName' : Option CStr} {opens opens' : Bool}
    {safe buffered : BufferedTraceReporter} (hsafe : create junk fileName true opens = some safe)
    (hbuffered : create junk' fileName' false opens' = some buffered) :
    (safe.notifyAll (events ++ [final])).map BufferedTraceReporter.output =
        (buffered.notifyAll (events ++ [final])).map BufferedTraceReporter.output ∧
      (buffered.notifyAll (events ++ [final])).map BufferedTraceReporter.output =
        (TraceReporter.printDirectly enabledMetrics (events ++ [final])).mapError .fmt := by
  have hdirect := notifyAll_eq_printDirectly hbuffered hevents hfinal
  exact ⟨(notifyAll_eq_printDirectly hsafe hevents hfinal).trans hdirect.symm, hdirect⟩

/-- One call, with the wall time enabled. -/
theorem trace_output_same_one_call :
    let table : EventFuncTable := ⟨1, 1, [⟨0, ⟨"f", ""⟩, FuncStats.zero⟩]⟩
    let enabledMetrics : Metric → Bool := fun m => m = .wallTime
    let start : Event :=
      ⟨.callStart, enabledMetrics, 1, 0, 0, table, 0, none, some 0, none, none⟩
    let stop : Event := ⟨.callEnd, enabledMetrics, 1, 1, 1, table, 0, none, some 0, some 1, some 1⟩
    let final : Event := ⟨.finalize, enabledMetrics, 1, 1, 1, table, 0, none, none, none, none⟩
    let junk : TraceSlot := ⟨.callEnd, 7, 0, 0, 5, 5⟩
    let safe : BufferedTraceReporter := ⟨['t'], true, true, 0, fun _ => junk, [], []⟩
    let buffered : BufferedTraceReporter := ⟨['t'], false, true, 0, fun _ => junk, [], []⟩
    (safe.notifyAll ([start, stop] ++ [final])).map BufferedTraceReporter.output =
        (buffered.notifyAll ([start, stop] ++ [final])).map BufferedTraceReporter.output ∧
      (buffered.notifyAll ([start, stop] ++ [final])).map BufferedTraceReporter.output =
        (TraceReporter.printDirectly enabledMetrics ([start, stop] ++ [final])).mapError .fmt := by
  intro table enabledMetrics start stop final junk safe buffered
  have hcreate : ∀ s, create (fun _ => junk) (some ['t']) s true =
      some ⟨['t'], s, true, 0, fun _ => junk, [], []⟩ := by
    intro s
    have hpath : isSafeTracePath ['t'] = true := by decide
    simp [create, hpath]
  refine trace_output_same ⟨?_, ?_, ?_⟩ rfl (hcreate true) (hcreate false)
  · intro event he
    fin_cases he <;> rfl
  · intro event he
    fin_cases he
    · exact ⟨fun _ => ⟨0, rfl, Nat.one_pos⟩, fun h => nomatch h⟩
    · exact ⟨fun _ => ⟨0, rfl, Nat.one_pos⟩, fun _ => ⟨1, 1, rfl, rfl⟩⟩
    · exact ⟨fun h => absurd rfl h, fun h => nomatch h⟩
  · simp [start, stop, final]

end BufferedTraceReporter

end PhpSpx
