import PhpSpx.Metric.Values

/-!
# The profile data of the web UI

`profileData.js`, as far as the flat profile depends on it: the list of the
recorded calls, the builder that fills it from the events of a report, and the
statistics of the functions computed from it.

A JavaScript number is read as an exact rational number or integer, whatever
the width of the packed array that keeps it.  An array with one place for each
enabled metric is a `RawValues`, an object with one key for each of them a
`MetricValueSet`.
-/

namespace PhpSpx.WebUi

/-- The `enabled_metrics` of the metadata of a report, each listed once. -/
structure EnabledMetrics where
  list : List Metric
  nodup : list.Nodup

/-- `Array(metrics.length)`, one number for each enabled metric. -/
abbrev RawValues (metrics : EnabledMetrics) := Fin metrics.list.length → ℚ

/-- `MetricValueSet`, one number under the key of each enabled metric. -/
abbrev MetricValueSet (metrics : EnabledMetrics) := {m // m ∈ metrics.list} → ℚ

variable {metrics : EnabledMetrics}

/-- `MetricValueSet.createFromMetricsAndValue`. -/
def MetricValueSet.createFromMetricsAndValue (value : ℚ) : MetricValueSet metrics := fun _ => value

/-- `MetricValueSet.add`. -/
def MetricValueSet.add (a b : MetricValueSet metrics) : MetricValueSet metrics :=
  fun m => a m + b m

/-- `MetricValueSet.sub`. -/
def MetricValueSet.sub (a b : MetricValueSet metrics) : MetricValueSet metrics :=
  fun m => a m - b m

/-- The place of a metric in the arrays. -/
def offset (m : {m // m ∈ metrics.list}) : Fin metrics.list.length :=
  ⟨metrics.list.idxOf m.1, List.idxOf_lt_length_of_mem m.2⟩

/-- The loops that copy an array into an object, metric by metric. -/
def byMetric (raw : RawValues metrics) : MetricValueSet metrics := fun m => raw (offset m)

/-! ## Packed arrays -/

/-- `utils.ChunkedRecordArray`: a growing array of records, each zero until it
is written.  The chunks it is cut into are read as one array. -/
structure ChunkedRecordArray (ρ : Type) where
  size : ℕ
  element : ℕ → ρ

/-- A new array. -/
def ChunkedRecordArray.new {ρ : Type} (zero : ρ) : ChunkedRecordArray ρ where
  size := 0
  element := fun _ => zero

/-- `ChunkedRecordArray.setElement`. -/
def ChunkedRecordArray.setElement {ρ : Type} (array : ChunkedRecordArray ρ) (idx : ℕ) (obj : ρ) :
    ChunkedRecordArray ρ where
  size := if idx + 1 > array.size then idx + 1 else array.size
  element := Function.update array.element idx obj

/-! ## The list of calls -/

/-- A record of the list of calls. -/
structure CallRecord (metrics : EnabledMetrics) where
  functionIdx : ℕ
  parentIdx : ℤ
  start : MetricValueSet metrics
  last : MetricValueSet metrics
  exc : MetricValueSet metrics

/-- A record as the packed array starts it. -/
def CallRecord.zero : CallRecord metrics where
  functionIdx := 0
  parentIdx := 0
  start := 0
  last := 0
  exc := 0

/-- `CallList`.  `functionNames` is an array by its places, `none` for `undefined`. -/
structure CallList (metrics : EnabledMetrics) where
  functionNames : ℕ → Option String
  array : ChunkedRecordArray (CallRecord metrics)

namespace CallList

/-- The constructor of `CallList`. -/
def new (functionCount : ℕ) : CallList metrics where
  functionNames := fun idx => if idx < functionCount then some "n/a" else none
  array := .new .zero

/-- `CallList.getSize`. -/
def getSize (list : CallList metrics) : ℕ := list.array.size

/-- `CallList.setRawCallData`. -/
def setRawCallData (list : CallList metrics) (idx functionNameIdx : ℕ) (parentIdx : ℤ)
    (start last exc : RawValues metrics) : CallList metrics :=
  { list with
    array :=
      list.array.setElement idx
        ⟨functionNameIdx, parentIdx, byMetric start, byMetric last, byMetric exc⟩ }

/-- `CallListEntry.getFunctionIdx`. -/
def getFunctionIdx (list : CallList metrics) (idx : ℕ) : ℕ := (list.array.element idx).functionIdx

/-- `CallListEntry.getFunctionName`. -/
def getFunctionName (list : CallList metrics) (idx : ℕ) : Option String :=
  list.functionNames (list.getFunctionIdx idx)

/-- `CallListEntry.getIncMetricValues`. -/
def getIncMetricValues (list : CallList metrics) (idx : ℕ) : MetricValueSet metrics :=
  (list.array.element idx).last.sub (list.array.element idx).start

/-- `CallListEntry.getExcMetricValues`. -/
def getExcMetricValues (list : CallList metrics) (idx : ℕ) : MetricValueSet metrics :=
  (list.array.element idx).exc

/-- The loop of `getCycleDepth`, cut after `fuel` iterations. -/
def cycleDepthLoop (list : CallList metrics) (functionIdx : ℕ) : ℕ → ℤ → ℕ → Option ℕ
  | fuel, parentIdx, cycleDepth =>
      if parentIdx < 0 then some cycleDepth
      else
        match fuel with
        | 0 => none
        | fuel + 1 =>
            let parent := list.array.element parentIdx.toNat
            cycleDepthLoop list functionIdx fuel parent.parentIdx
              (if functionIdx = parent.functionIdx then cycleDepth + 1 else cycleDepth)

/-- `CallListEntry.getCycleDepth`, `none` when the parents of the call go round
in circles. -/
def getCycleDepth (list : CallList metrics) (idx : ℕ) : Option ℕ :=
  list.cycleDepthLoop (list.getFunctionIdx idx) list.getSize (list.array.element idx).parentIdx 0

end CallList

/-! ## The builder -/

/-- `Number.MAX_VALUE`. -/
def numberMaxValue : ℚ := (2 ^ 53 - 1) * 2 ^ 971

/-- `Stats`. -/
structure Stats (metrics : EnabledMetrics) where
  min : MetricValueSet metrics
  max : MetricValueSet metrics
  callMin : MetricValueSet metrics
  callMax : MetricValueSet metrics

namespace Stats

/-- The constructor of `Stats`. -/
def new : Stats metrics where
  min := .createFromMetricsAndValue numberMaxValue
  max := .createFromMetricsAndValue (-numberMaxValue)
  callMin := .createFromMetricsAndValue numberMaxValue
  callMax := .createFromMetricsAndValue (-numberMaxValue)

/-- `Stats.mergeMetricValue`, for every metric. -/
def mergeMetricValue (stats : Stats metrics) (values : MetricValueSet metrics) : Stats metrics :=
  { stats with
    min := fun m => Min.min (stats.min m) (values m)
    max := fun m => Max.max (stats.max m) (values m) }

/-- `Stats.mergeCallMetricValue`, for every metric. -/
def mergeCallMetricValue (stats : Stats metrics) (values : MetricValueSet metrics) :
    Stats metrics :=
  { stats with
    callMin := fun m => Min.min (stats.callMin m) (values m)
    callMax := fun m => Max.max (stats.callMax m) (values m) }

end Stats

/-- An event line of a report: the index of the function, whether the call
starts, and the values of the enabled metrics. -/
structure ReportEvent (metrics : EnabledMetrics) where
  fnIdx : ℕ
  isStart : Bool
  values : RawValues metrics

/-- A frame of the builder's stack.  Of the frame `parent` only its `idx` is
ever read. -/
structure BuilderFrame (metrics : EnabledMetrics) where
  idx : ℕ
  startEvent : ReportEvent metrics
  startEventIdx : ℕ
  fnIdx : ℕ
  parent : Option ℕ
  start : RawValues metrics
  last : RawValues metrics
  exc : RawValues metrics
  children : RawValues metrics

/-- The frame of a call once the end of the call is known. -/
def BuilderFrame.ended (frame : BuilderFrame metrics) (event : ReportEvent metrics) :
    BuilderFrame metrics :=
  { frame with
    start := frame.startEvent.values
    last := event.values
    exc := fun j => event.values j - frame.startEvent.values j - frame.children j }

/-- `ProfileDataBuilder`.  The stack has its top first. -/
structure ProfileDataBuilder (metrics : EnabledMetrics) where
  stats : Stats metrics
  currentCallCount : ℕ
  callList : CallList metrics
  metricValuesList : ChunkedRecordArray (MetricValueSet metrics)
  stack : List (BuilderFrame metrics)
  eventCount : ℕ
  callCount : ℕ

namespace ProfileDataBuilder

/-- The builder after `setMetadata`, for the number of called functions. -/
def setMetadata (calledFunctionCount : ℕ) : ProfileDataBuilder metrics where
  stats := .new
  currentCallCount := 0
  callList := .new calledFunctionCount
  metricValuesList := .new 0
  stack := []
  eventCount := 0
  callCount := 0

/-- The loop of `addEvent` that takes the exclusive values of an ended call off
the children of the nearest frame of the same function. -/
def creditNearest (fnIdx : ℕ) (exc : RawValues metrics) :
    List (BuilderFrame metrics) → List (BuilderFrame metrics)
  | [] => []
  | frame :: frames =>
      if frame.fnIdx = fnIdx then
        { frame with children := fun j => frame.children j - exc j } :: frames
      else frame :: creditNearest fnIdx exc frames

/-- The addition of the values of an ended call to the children of its parent. -/
def chargeTop (inc : RawValues metrics) :
    List (BuilderFrame metrics) → List (BuilderFrame metrics)
  | [] => []
  | frame :: frames => { frame with children := fun j => frame.children j + inc j } :: frames

/-- The part of `addEvent` for the start of a call. -/
def pushFrame (builder : ProfileDataBuilder metrics) (event : ReportEvent metrics) :
    ProfileDataBuilder metrics :=
  { builder with
    stack :=
      { idx := builder.callCount
        startEvent := event
        startEventIdx := builder.eventCount
        fnIdx := event.fnIdx
        parent := builder.stack.head?.map BuilderFrame.idx
        start := fun _ => 0
        last := fun _ => 0
        exc := fun _ => 0
        children := fun _ => 0 } :: builder.stack
    eventCount := builder.eventCount + 1
    callCount := builder.callCount + 1 }

/-- The part of `addEvent` for the end of the call of `frame`, the stack being
`frames` without it. -/
def popFrame (builder : ProfileDataBuilder metrics) (frame : BuilderFrame metrics)
    (frames : List (BuilderFrame metrics)) (event : ReportEvent metrics) :
    ProfileDataBuilder metrics :=
  let frame := frame.ended event
  let inc : RawValues metrics := fun j => frame.last j - frame.start j
  { builder with
    stats :=
      ((builder.stats.mergeMetricValue (byMetric frame.start)).mergeMetricValue
        (byMetric frame.last)).mergeCallMetricValue (byMetric inc)
    metricValuesList :=
      (builder.metricValuesList.setElement frame.startEventIdx (byMetric frame.start)).setElement
        builder.eventCount (byMetric frame.last)
    stack := creditNearest frame.fnIdx frame.exc (chargeTop inc frames)
    eventCount := builder.eventCount + 1
    currentCallCount := builder.currentCallCount + 1
    callList :=
      builder.callList.setRawCallData frame.idx frame.fnIdx
        (match frame.parent with
          | some idx => idx
          | none => -1)
        frame.start frame.last frame.exc }

/-- `ProfileDataBuilder.addEvent`.  It throws when a call ends while the stack
is empty. -/
def addEvent (builder : ProfileDataBuilder metrics) (event : ReportEvent metrics) :
    Option (ProfileDataBuilder metrics) :=
  if event.isStart then some (builder.pushFrame event)
  else
    match builder.stack with
    | [] => none
    | frame :: frames => some (builder.popFrame frame frames event)

/-- The events of a report, one after the other. -/
def addEvents : List (ReportEvent metrics) → ProfileDataBuilder metrics →
    Option (ProfileDataBuilder metrics)
  | [], builder => some builder
  | event :: events, builder => (builder.addEvent event).bind (addEvents events)

end ProfileDataBuilder

/-! ## The statistics of the functions -/

/-- A value of the map of `FunctionsStats`. -/
structure FunctionStats (metrics : EnabledMetrics) where
  functionName : Option String
  maxCycleDepth : ℕ
  called : ℕ
  inc : MetricValueSet metrics
  exc : MetricValueSet metrics

/-- The statistics of a function met for the first time. -/
def FunctionStats.fresh (functionName : Option String) : FunctionStats metrics where
  functionName := functionName
  maxCycleDepth := 0
  called := 0
  inc := .createFromMetricsAndValue 0
  exc := .createFromMetricsAndValue 0

/-- Count a call, at its cycle depth. -/
def FunctionStats.addCall (stats : FunctionStats metrics) (cycleDepth : ℕ)
    (inc exc : MetricValueSet metrics) : FunctionStats metrics where
  functionName := stats.functionName
  maxCycleDepth := Max.max stats.maxCycleDepth cycleDepth
  called := stats.called + 1
  inc := if cycleDepth > 0 then stats.inc else stats.inc.add inc
  exc := if cycleDepth > 0 then stats.exc else stats.exc.add exc

/-- `FunctionsStats`: a map from the indices of functions. -/
abbrev FunctionsStats (metrics : EnabledMetrics) := ℕ → Option (FunctionStats metrics)

namespace FunctionsStats

/-- The loop body of the constructor of `FunctionsStats`. -/
def addCall (list : CallList metrics) (functionsStats : FunctionsStats metrics) (idx : ℕ) :
    Option (FunctionsStats metrics) :=
  let stats :=
    (functionsStats (list.getFunctionIdx idx)).getD (.fresh (list.getFunctionName idx))
  (list.getCycleDepth idx).map fun cycleDepth =>
    Function.update functionsStats (list.getFunctionIdx idx)
      (some (stats.addCall cycleDepth (list.getIncMetricValues idx) (list.getExcMetricValues idx)))

/-- The constructor of `FunctionsStats`. -/
def new (list : CallList metrics) (calls : List ℕ) : Option (FunctionsStats metrics) :=
  calls.foldlM (addCall list) fun _ => none

/-- The statistics over all recorded calls. -/
def ofAllCalls (list : CallList metrics) : Option (FunctionsStats metrics) :=
  new list (List.range list.getSize)

end FunctionsStats

end PhpSpx.WebUi
