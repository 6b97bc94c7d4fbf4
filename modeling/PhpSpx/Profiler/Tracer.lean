import PhpSpx.Lib.Forest
import PhpSpx.Profiler.FuncTable
import PhpSpx.Profiler.Limits

/-!
# The tracing profiler

`spx_profiler_tracer.c`: the profiler that records every call.  What comes from
outside during a hook, the values the metric collector returns and the cost the
reporter answers, is an input of the hook; what the profiler asks of the
collector and the events it notifies are kept in the state, in order.

The state also keeps the indices of the stack frames read or written so far
(`TracerStack.accesses`), which the code does not, so that the bounds of the
array can be stated.  The stack capacity is taken to fit in an `int`, the type
of the index of the loop over the parent frames.
-/

namespace PhpSpx

open Lib

/-! ## State -/

/-- `stack_frame_t`.  The pointer to a table entry is the entry's index. -/
structure Frame where
  funcTableEntry : Option ℕ
  startMetricValues : MetricValues
  childrenMetricValues : MetricValues
  peakMetricValues : MetricValues

/-- A frame as `calloc` leaves it. -/
def Frame.zero : Frame where
  funcTableEntry := none
  startMetricValues := metricValuesZero
  childrenMetricValues := metricValuesZero
  peakMetricValues := metricValuesZero

/-- The `stack` member of `tracing_profiler_t`. -/
structure TracerStack where
  depth : ℕ
  capacity : ℕ
  frames : ℕ → Frame
  accesses : List ℕ

namespace TracerStack

/-- Note a read of frame `i`. -/
def touch (s : TracerStack) (i : ℕ) : TracerStack := { s with accesses := s.accesses ++ [i] }

/-- Write frame `i`. -/
def modifyFrame (s : TracerStack) (i : ℕ) (g : Frame → Frame) : TracerStack :=
  { s with
    frames := Function.update s.frames i (g (s.frames i))
    accesses := s.accesses ++ [i] }

/-- The table entry of the frame below the current depth: the caller. -/
def caller (s : TracerStack) : Option ℕ :=
  if s.depth > 0 then (s.frames (s.depth - 1)).funcTableEntry else none

/-- Reading the caller and the callee for an event. -/
def touchEvent (s : TracerStack) : TracerStack :=
  if s.depth > 0 then (s.touch (s.depth - 1)).touch s.depth else s.touch s.depth

end TracerStack

/-- The calls of the metric collector's interface. -/
inductive CollectorCall where
  | collect
  | noiseBarrier
  | addFixedNoise (noise : MetricValues)

/-- What `profiler->reporter` points to. -/
inductive ReporterRef where
  | given
  | null
  deriving DecidableEq, Repr

/-- `tracing_profiler_t`. -/
structure Tracer where
  finalized : Bool
  active : Bool
  enabledMetrics : Metric → Bool
  metricCollector : List CollectorCall
  calibrated : Bool
  callStartNoise : MetricValues
  callEndNoise : MetricValues
  reporter : ReporterRef
  maxDepth : ℕ
  called : ℕ
  firstMetricValues : MetricValues
  lastMetricValues : MetricValues
  cumMetricValues : MetricValues
  maxMetricValues : MetricValues
  stack : TracerStack
  funcTable : FuncTable
  notified : List Event

/-- `spx_profiler_tracer_create`.  `junk` is what `malloc` left in the members
the function does not set. -/
def spxProfilerTracerCreate (limits : Limits) (zendInlineHashFunc : String → UInt64)
    (maxDepth : ℕ) (enabledMetrics : Metric → Bool) (junk : MetricValues) : Tracer where
  finalized := false
  active := true
  enabledMetrics := enabledMetrics
  metricCollector := []
  calibrated := false
  callStartNoise := metricValuesZero
  callEndNoise := metricValuesZero
  reporter := .given
  maxDepth :=
    if maxDepth > 0 ∧ maxDepth < limits.maxStackDepth then maxDepth else limits.maxStackDepth
  called := 0
  firstMetricValues := junk
  lastMetricValues := junk
  cumMetricValues := junk
  maxMetricValues := junk
  stack :=
    { depth := 0
      capacity := limits.maxStackDepth
      frames := fun _ => Frame.zero
      accesses := [] }
  funcTable := funcTableCreate zendInlineHashFunc limits.maxFunctionTableSize
  notified := []

/-- What the outside answers during one hook: the values collected and the cost
of the notification. -/
structure HookInput where
  reading : MetricValues
  cost : ReporterCost

/-- What the outside answers during a calibration: the values collected in the
iterations of its two loops and the four readings of the CPU time. -/
structure CalibrationInput where
  startReading : ℕ → MetricValues
  endReading : ℕ → MetricValues
  cpuStart : UInt64
  cpuStarted : UInt64
  cpuEnd : UInt64
  cpuEnded : UInt64

/-! ## Notifications -/

/-- `fill_event`. -/
def fillEvent (p : Tracer) (type : EventType) (caller callee : Option ℕ)
    (inc exc : Option MetricValues) : Event where
  type := type
  enabledMetrics := p.enabledMetrics
  called := p.called
  max := p.maxMetricValues
  cum := p.cumMetricValues
  funcTable :=
    { size := p.funcTable.size
      capacity := p.funcTable.capacity
      entries := p.funcTable.entries }
  depth := p.stack.depth
  caller := caller
  callee := callee
  inc := inc
  exc := exc

namespace Tracer

/-- `reporter->notify`: the null reporter of a calibration ignores the event. -/
def notify (p : Tracer) (event : Event) (cost : ReporterCost) : ReporterCost × Tracer :=
  match p.reporter with
  | .given => (cost, { p with notified := p.notified ++ [event] })
  | .null => (.light, p)

/-- Ask something of the collector. -/
def askCollector (p : Tracer) (call : CollectorCall) : Tracer :=
  { p with metricCollector := p.metricCollector ++ [call] }

/-- The common end of both hooks: notify, put a noise barrier after a heavy
notification, and account for the hook's own cost. -/
def notifyAndCompensate (p : Tracer) (event : Event) (cost : ReporterCost) (noise : MetricValues) :
    Tracer :=
  match p.notify event cost with
  | (.heavy, p) => (p.askCollector .noiseBarrier).askCollector (.addFixedNoise noise)
  | (.light, p) => p.askCollector (.addFixedNoise noise)

/-- The collected values are the last ones, and move the cumulated ones and the
maximum. -/
def record (p : Tracer) (cur : MetricValues) : Tracer :=
  { p with
    metricCollector := p.metricCollector ++ [.collect]
    lastMetricValues := cur
    cumMetricValues := metricValuesSub cur p.firstMetricValues
    maxMetricValues := metricValuesMax p.maxMetricValues cur }

/-- On the first call, the collected values are also the first and the maximal
ones. -/
def recordFirst (p : Tracer) (cur : MetricValues) : Tracer :=
  if p.called = 0 then { p with firstMetricValues := cur, maxMetricValues := cur } else p

/-- The part of `tracing_profiler_call_start` that fills a frame. -/
def openFrame (p : Tracer) (function : PhpFunction) (input : HookInput) : Tracer :=
  let d := p.stack.depth
  let found := p.funcTable.getEntry function
  let p :=
    { p with
      called := p.called + 1
      funcTable := found.2
      stack := p.stack.modifyFrame d fun frame => { frame with funcTableEntry := found.1 } }
  match found.1 with
  | none => p
  | some idx =>
      let p :=
        { p with
          stack :=
            (p.stack.modifyFrame d fun _ =>
              ⟨some idx, input.reading, metricValuesZero, input.reading⟩).touchEvent }
      let event := fillEvent p .callStart p.stack.caller (p.stack.frames d).funcTableEntry none none
      p.notifyAndCompensate event input.cost p.callStartNoise

/-- What follows the label `end` of `tracing_profiler_call_start`. -/
def pushed (p : Tracer) : Tracer :=
  { p with
    stack := { p.stack with depth := p.stack.depth + 1 }
    active := p.stack.depth + 1 < p.maxDepth }

end Tracer

/-- `tracing_profiler_call_start`, for a given calibration. -/
def callStartWith (calibrate : Tracer → Except Die Tracer) (p : Tracer) (function : PhpFunction)
    (input : HookInput) : Except Die Tracer :=
  if p.finalized then .ok p
  else if p.active = false then .ok p.pushed
  else
    (if p.called = 0 ∧ p.calibrated = false then calibrate p else .ok p).map fun p =>
      (((p.recordFirst input.reading).record input.reading).openFrame function input).pushed

/-! ## The end of a call -/

/-- The loop over the frames below the ended call, from index `i - 1` down.
`depth` is the ended call's depth and `cycleDepth` the count so far. -/
def chargeParents (depth entry : ℕ) (inc exc : MetricValues) :
    ℕ → ℕ → TracerStack → ℕ × TracerStack
  | 0, cycleDepth, s => (cycleDepth, s)
  | i + 1, cycleDepth, s =>
      match (s.frames i).funcTableEntry with
      | none => chargeParents depth entry inc exc i cycleDepth (s.touch i)
      | some parentEntry =>
          let s :=
            if i + 1 = depth then
              s.modifyFrame i fun frame =>
                { frame with
                  childrenMetricValues := metricValuesAdd frame.childrenMetricValues inc }
            else s.touch i
          if parentEntry = entry then
            let s :=
              if cycleDepth = 0 then
                s.modifyFrame i fun frame =>
                  { frame with
                    childrenMetricValues := metricValuesSub frame.childrenMetricValues exc }
              else s
            chargeParents depth entry inc exc i (cycleDepth + 1) s
          else chargeParents depth entry inc exc i cycleDepth s

/-- Count an ended call, at its cycle depth. -/
def FuncStats.recordCall (stats : FuncStats) (cycleDepth : ℕ) (inc exc : MetricValues) :
    FuncStats where
  called := stats.called + 1
  maxCycleDepth := if stats.maxCycleDepth < cycleDepth then cycleDepth else stats.maxCycleDepth
  inc := if cycleDepth = 0 then metricValuesAdd stats.inc inc else stats.inc
  exc := if cycleDepth = 0 then metricValuesAdd stats.exc exc else stats.exc

/-- Write the statistics of the entry at `idx`. -/
def FuncTable.modifyStats (t : FuncTable) (idx : ℕ) (g : FuncStats → FuncStats) : FuncTable :=
  { t with entries := t.entries.modify idx fun entry => { entry with stats := g entry.stats } }

namespace Tracer

/-- What precedes the collection in `tracing_profiler_call_end`. -/
def popped (p : Tracer) : Tracer :=
  { p with
    stack := { p.stack with depth := p.stack.depth - 1 }
    active := p.stack.depth - 1 < p.maxDepth }

/-- `inc_metric_values`. -/
def incMetricValues (p : Tracer) (input : HookInput) : MetricValues :=
  metricValuesSub input.reading (p.stack.frames p.stack.depth).startMetricValues

/-- `exc_metric_values`. -/
def excMetricValues (p : Tracer) (input : HookInput) : MetricValues :=
  metricValuesSub (p.incMetricValues input) (p.stack.frames p.stack.depth).childrenMetricValues

/-- The frame's peak, then the loop over the parent frames: the cycle depth and
the stack. -/
def charged (p : Tracer) (entry : ℕ) (input : HookInput) : ℕ × TracerStack :=
  chargeParents p.stack.depth entry (p.incMetricValues input) (p.excMetricValues input)
    p.stack.depth 0
    (p.stack.modifyFrame p.stack.depth fun frame =>
      { frame with peakMetricValues := metricValuesMax frame.peakMetricValues input.reading })

/-- The part of `tracing_profiler_call_end` for a frame without a table entry. -/
def skipFrame (p : Tracer) : Tracer := { p with stack := p.stack.touch p.stack.depth }

/-- The part of `tracing_profiler_call_end` for a frame with a table entry. -/
def closeFrame (p : Tracer) (entry : ℕ) (input : HookInput) : Tracer :=
  let inc := p.incMetricValues input
  let exc := p.excMetricValues input
  let charged := p.charged entry input
  let p :=
    { p with
      stack := charged.2.touchEvent
      funcTable := p.funcTable.modifyStats entry fun stats => stats.recordCall charged.1 inc exc }
  let event :=
    fillEvent p .callEnd p.stack.caller (p.stack.frames p.stack.depth).funcTableEntry (some inc)
      (some exc)
  p.notifyAndCompensate event input.cost p.callEndNoise

end Tracer

/-- `tracing_profiler_call_end`. -/
def tracingProfilerCallEnd (p : Tracer) (input : HookInput) : Except Die Tracer :=
  if p.finalized then .ok p
  else if p.stack.depth = 0 then .error .rewindBelowZeroDepth
  else
    let p := p.popped
    if p.active = false then .ok p
    else
      let p := p.record input.reading
      match (p.stack.frames p.stack.depth).funcTableEntry with
      | none => .ok p.skipFrame
      | some entry => .ok (p.closeFrame entry input)

/-! ## Calibration -/

/-- `iter_count`. -/
def calibrationIterCount : ℕ := 50000

/-- The first loop of `calibrate`.  The calibrating profiler is already marked
as calibrated, so its call starts do not calibrate again. -/
def calibrateStarts (function : PhpFunction) (readings : ℕ → MetricValues) :
    ℕ → Tracer → Except Die Tracer
  | 0, p => .ok p
  | n + 1, p =>
      (calibrateStarts function readings n p).bind fun p =>
        (callStartWith .ok p function ⟨readings n, .light⟩).map fun p =>
          { p with stack := { p.stack with depth := if p.stack.depth > 5 then 5 else p.stack.depth } }

/-- The second loop of `calibrate`. -/
def calibrateEnds (readings : ℕ → MetricValues) : ℕ → Tracer → Except Die Tracer
  | 0, p => .ok p
  | n + 1, p =>
      (calibrateEnds readings n p).bind fun p =>
        (tracingProfilerCallEnd p ⟨readings n, .light⟩).map fun p =>
          { p with stack := { p.stack with depth := p.stack.depth + 1 } }

/-- The noise vector of an average noise. -/
def timeNoise (noise : MetricValues) (avgNoise : UInt64) : MetricValues :=
  Function.update (Function.update noise .wallTime (avgNoise.toNat : ℚ)) .cpuTime
    (avgNoise.toNat : ℚ)

/-- `calibrate`, for a number of iterations. -/
def calibrateFor (iterCount : ℕ) (function : PhpFunction) (input : CalibrationInput) (p : Tracer) :
    Except Die Tracer :=
  let reporter := p.reporter
  (calibrateStarts function input.startReading iterCount
    { p with calibrated := true, reporter := .null }).bind fun p =>
  (calibrateEnds input.endReading iterCount
    { p with
      callStartNoise := timeNoise p.callStartNoise
        ((input.cpuStarted - input.cpuStart) / UInt64.ofNat iterCount) }).map fun p =>
    { p with
      callEndNoise := timeNoise p.callEndNoise
        ((input.cpuEnded - input.cpuEnd) / UInt64.ofNat iterCount)
      reporter := reporter
      called := 0
      stack := { p.stack with depth := 0 }
      funcTable := p.funcTable.reset }

/-- `calibrate`. -/
def calibrate (function : PhpFunction) (input : CalibrationInput) (p : Tracer) :
    Except Die Tracer :=
  calibrateFor calibrationIterCount function input p

/-- `tracing_profiler_call_start`. -/
def tracingProfilerCallStart (p : Tracer) (function : PhpFunction) (input : HookInput)
    (calibration : CalibrationInput) : Except Die Tracer :=
  callStartWith (calibrate function calibration) p function input

/-! ## Finalization -/

/-- The unwinding loop of `tracing_profiler_finalize`, with the inputs of its
call ends.  Each of them lowers the depth, so `n` is the depth on entry. -/
def unwind : ℕ → Tracer → (ℕ → HookInput) → Except Die Tracer
  | 0, p, _ => .ok p
  | n + 1, p, inputs =>
      if p.stack.depth = 0 then .ok p
      else (tracingProfilerCallEnd p (inputs 0)).bind fun p => unwind n p fun i => inputs (i + 1)

/-- What follows the loop in `tracing_profiler_finalize`. -/
def Tracer.concluded (p : Tracer) : Tracer :=
  let p := { p with finalized := true }
  (p.notify (fillEvent p .finalize none none none none) .light).2

/-- `tracing_profiler_finalize`. -/
def tracingProfilerFinalize (p : Tracer) (inputs : ℕ → HookInput) : Except Die Tracer :=
  (unwind p.stack.depth { p with active := true } inputs).map Tracer.concluded

/-! ## Runs -/

/-- The data of a call start. -/
structure CallStart where
  function : PhpFunction
  input : HookInput
  calibration : CalibrationInput

/-- A call of one of the two hooks: a start is an opening bracket, an end a
closing one. -/
abbrev TracerOp := Paren CallStart HookInput

/-- One hook. -/
def tracerStep (p : Tracer) : TracerOp → Except Die Tracer
  | .opening call => tracingProfilerCallStart p call.function call.input call.calibration
  | .closing input => tracingProfilerCallEnd p input

/-- A sequence of hooks. -/
def tracerRun : List TracerOp → Tracer → Except Die Tracer
  | [], p => .ok p
  | op :: ops, p => (tracerStep p op).bind (tracerRun ops)

/-- A sequence of hooks, then the finalization. -/
def tracerProfile (p : Tracer) (ops : List TracerOp) (inputs : ℕ → HookInput) :
    Except Die Tracer :=
  (tracerRun ops p).bind fun p => tracingProfilerFinalize p inputs

/-- A call of the function `name`, every metric read as `t`. -/
def callAt (name : String) (t : ℚ) : TracerOp :=
  .opening ⟨⟨name, ""⟩, ⟨fun _ => t, .light⟩, ⟨fun _ _ => 0, fun _ _ => 0, 0, 0, 0, 0⟩⟩

/-- The input of a call end, every metric read as `t`. -/
def endAt (t : ℚ) : HookInput := ⟨fun _ => t, .light⟩

end PhpSpx
