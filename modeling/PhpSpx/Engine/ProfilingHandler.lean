import PhpSpx.Lib.Outcome
import PhpSpx.Profiler.Sampler
import PhpSpx.Profiler.Tracer
import PhpSpx.Request.Config

/-!
# The engine hooks and the profiling handler

`spx_call_stack.c`, the execution hooks of `spx_php.c` and the profiling handler
of `php_spx.c`: the call stack kept by the hooks, the attached profiler, the
functions `spx_profiler_start` and `spx_profiler_stop`, and the pseudo call of
the request shutdown.

What comes from outside is an input of each operation: the function the engine
executes, the answers to a profiler's hook, and whether the parts of a profile
could be created.  The state also keeps the activities the engine is in, and for
an attached profiler the calls it was given; the code keeps neither.  Signal
handling is not modelled, nor are the counters of `spx_php.c`, nor the flag
`execution_disabled`, which is only set for the web UI.
-/

namespace PhpSpx

open Lib

/-! ## `spx_call_stack.c` -/

/-- `spx_call_stack_t`, the frames below `depth` in index order. -/
structure CallStack where
  frames : List PhpFunction
  capacity : ℕ

namespace CallStack

/-- `spx_call_stack_depth`. -/
def depth (stack : CallStack) : ℕ := stack.frames.length

/-- `spx_call_stack_is_full`. -/
def isFull (stack : CallStack) : Bool := stack.capacity ≤ stack.depth

/-- `spx_call_stack_push`. -/
def push (stack : CallStack) (function : PhpFunction) : Option CallStack :=
  if stack.capacity ≤ stack.depth then none
  else some { stack with frames := stack.frames ++ [function] }

/-- `spx_call_stack_pop`. -/
def pop (stack : CallStack) : Option CallStack :=
  if stack.depth = 0 then none else some { stack with frames := stack.frames.dropLast }

end CallStack

/-! ## The attached profiler -/

/-- What the outside answers to one call of the tracing profiler. -/
structure ProfilerInput where
  hook : HookInput
  calibration : CalibrationInput

/-- What the outside answers during one hook: whether the heartbeat thread had set
`ready`, and the answers to the calls of the tracing profiler made by the hook. -/
structure HookEnv where
  ready : Bool
  inputs : ℕ → ProfilerInput

/-- `spx_profiler_t`: the tracing profiler, alone or sampled. -/
inductive Profiler where
  | tracing (tracer : Tracer)
  | sampling (sampler : Sampler) (sampled : Tracer)

/-- The profiler `context.profiling_handler.profiler` points to, and the calls it
was given. -/
structure AttachedProfiler where
  profiler : Profiler
  given : List (Paren PhpFunction Unit)

/-- The calls the sampling profiler makes to the sampled one. -/
def forwardCalls : List (Paren PhpFunction Unit) → (ℕ → ProfilerInput) → Tracer → Except Die Tracer
  | [], _, tracer => .ok tracer
  | .opening function :: calls, inputs, tracer =>
    (tracingProfilerCallStart tracer function (inputs 0).hook (inputs 0).calibration).bind
      (forwardCalls calls fun i => inputs (i + 1))
  | .closing _ :: calls, inputs, tracer =>
    (tracingProfilerCallEnd tracer (inputs 0).hook).bind
      (forwardCalls calls fun i => inputs (i + 1))

/-- The sampling profiler after a hook, from `before`, with the calls made on to
the sampled profiler. -/
def Profiler.sampled (before after : Sampler) (env : HookEnv) (tracer : Tracer) :
    Except Die Profiler :=
  (forwardCalls (after.sampledProfiler.drop before.sampledProfiler.length) env.inputs tracer).map
    (.sampling after)

section Hash

variable (zendInlineHashFunc : String → UInt64)

/-- `profiler->call_start`. -/
def Profiler.callStart (function : PhpFunction) (env : HookEnv) : Profiler → Except Die Profiler
  | .tracing tracer =>
    (tracingProfilerCallStart tracer function (env.inputs 0).hook (env.inputs 0).calibration).map
      .tracing
  | .sampling sampler tracer =>
    (samplingProfilerCallStart (PhpFunction.hashCode zendInlineHashFunc) sampler function
      env.ready).bind fun after => Profiler.sampled sampler after env tracer

/-- `profiler->call_end`. -/
def Profiler.callEnd (env : HookEnv) : Profiler → Except Die Profiler
  | .tracing tracer => (tracingProfilerCallEnd tracer (env.inputs 0).hook).map .tracing
  | .sampling sampler tracer =>
    Profiler.sampled sampler
      (samplingProfilerCallEnd (PhpFunction.hashCode zendInlineHashFunc) sampler env.ready) env
      tracer

/-- `profiler->finalize`. -/
def Profiler.finalize (unwinding : ℕ → HookInput) : Profiler → Except Die Profiler
  | .tracing tracer => (tracingProfilerFinalize tracer unwinding).map .tracing
  | .sampling sampler tracer => (tracingProfilerFinalize tracer unwinding).map (.sampling sampler)

/-- `profiler->call_start`, noted. -/
def AttachedProfiler.callStart (a : AttachedProfiler) (function : PhpFunction) (env : HookEnv) :
    Except Die AttachedProfiler :=
  (a.profiler.callStart zendInlineHashFunc function env).map fun profiler =>
    ⟨profiler, a.given ++ [.opening function]⟩

/-- `profiler->call_end`, noted. -/
def AttachedProfiler.callEnd (a : AttachedProfiler) (env : HookEnv) :
    Except Die AttachedProfiler :=
  (a.profiler.callEnd zendInlineHashFunc env).map fun profiler =>
    ⟨profiler, a.given ++ [.closing ()]⟩

end Hash

/-! ## State -/

/-- What the engine can be in the middle of, with the function the engine says it
executes where the hook asks it. -/
inductive Activity where
  | userCall (function : PhpFunction)
  | internalCall (function : PhpFunction)
  | compileFile
  | compileString
  | gcCollectCycles
  deriving DecidableEq, Repr

/-- `context` of `spx_php.c`. -/
structure HookContext where
  userHooked : Bool
  internalHooked : Bool
  globalHooksEnabled : Bool
  userDepth : ℕ
  requestShutdown : Bool
  activeFunctionName : Option String
  deriving DecidableEq, Repr

/-- `context` of `php_spx.c` in a request of the profiling handler, with the hooks'
own context.  `reporter` says which reporter was created. -/
structure Engine where
  config : SpxConfig
  hooks : HookContext
  callStack : Option CallStack
  fullReportKey : String
  reporter : Option ConfigReport
  profiler : Option AttachedProfiler
  spanDepth : ℕ
  activities : List Activity

/-- The frames of the hook call stack, in index order. -/
def Engine.frames (e : Engine) : List PhpFunction := (e.callStack.map CallStack.frames).getD []

/-- The context with another `active_function_name`. -/
def Engine.setActive (e : Engine) (name : Option String) : Engine :=
  { e with hooks := { e.hooks with activeFunctionName := name } }

/-- `spx_php_current_function`; `current` is what the engine executes. -/
def spxPhpCurrentFunction (hooks : HookContext) (current : PhpFunction) : PhpFunction :=
  match hooks.activeFunctionName with
  | some name => ⟨name, ""⟩
  | none => current

/-- The answers to the calls made when a profiler is stopped. -/
structure StopEnv where
  hook : HookEnv
  unwinding : ℕ → HookInput

/-- What the outside answers when a profiler is started: what could be created,
what `malloc` left in the tracing profiler, and the answers to the calls made on
failure and by the replay of the call stack. -/
structure StartEnv where
  reporterCreated : Bool
  reporterKey : String
  tracerCreated : Bool
  junk : MetricValues
  samplerCreated : Bool
  stop : StopEnv
  replay : ℕ → HookEnv

section Engine

variable (limits : Limits) (zendInlineHashFunc : String → UInt64)

/-! ## Hooks of `php_spx.c` -/

/-- `profiling_handler_ex_hook_before`. -/
def profilingHandlerExHookBefore (e : Engine) (current : PhpFunction) (env : HookEnv) :
    Except Die Engine :=
  match e.callStack with
  | none => .error .callStackCapacityExceeded
  | some stack =>
    if stack.isFull then .error .callStackCapacityExceeded
    else
      let function := spxPhpCurrentFunction e.hooks current
      match stack.push function with
      | none => .error .failedToPush
      | some stack =>
        let e := { e with callStack := some stack }
        match e.profiler with
        | none => .ok e
        | some a =>
          (a.callStart zendInlineHashFunc function env).map fun a => { e with profiler := some a }

/-- `profiling_handler_ex_hook_after`. -/
def profilingHandlerExHookAfter (e : Engine) (env : HookEnv) : Except Die Engine :=
  match e.callStack.bind CallStack.pop with
  | none => .error .failedToPop
  | some stack =>
    let e := { e with callStack := some stack }
    match e.profiler with
    | none => .ok e
    | some a => (a.callEnd zendInlineHashFunc env).map fun a => { e with profiler := some a }

/-! ## Hooks of `spx_php.c` -/

/-- `context.ex_hook.internal.before`, when it is set. -/
def internalBefore (e : Engine) (current : PhpFunction) (env : HookEnv) : Except Die Engine :=
  if e.hooks.internalHooked then profilingHandlerExHookBefore zendInlineHashFunc e current env
  else .ok e

/-- `context.ex_hook.internal.after`, when it is set. -/
def internalAfter (e : Engine) (env : HookEnv) : Except Die Engine :=
  if e.hooks.internalHooked then profilingHandlerExHookAfter zendInlineHashFunc e env else .ok e

/-- `"::php_request_shutdown"`. -/
def phpRequestShutdown : String := "::php_request_shutdown"

/-- `global_hook_execute_ex`, up to the execution. -/
def executeExBefore (e : Engine) (function : PhpFunction) (env : HookEnv) : Except Die Engine :=
  let e := { e with hooks := { e.hooks with userDepth := e.hooks.userDepth + 1 } }
  if e.hooks.userHooked then profilingHandlerExHookBefore zendInlineHashFunc e function env
  else .ok e

/-- The push of the pseudo call of the request shutdown. -/
def pushRequestShutdown (e : Engine) (env : HookEnv) : Except Die Engine :=
  let e := { e with hooks := { e.hooks with requestShutdown := true } }
  if e.hooks.internalHooked then
    (profilingHandlerExHookBefore zendInlineHashFunc (e.setActive (some phpRequestShutdown))
      ⟨"", ""⟩ env).map fun e => e.setActive none
  else .ok e

/-- `global_hook_execute_ex`, from the execution on.  The first input is that of the
after hook, the second one that of the request shutdown. -/
def executeExAfter (e : Engine) (env shutdownEnv : HookEnv) : Except Die Engine :=
  (if e.hooks.userHooked then profilingHandlerExHookAfter zendInlineHashFunc e env
    else .ok e).bind fun e =>
  let e := { e with hooks := { e.hooks with userDepth := e.hooks.userDepth - 1 } }
  if e.hooks.userDepth = 0 ∧ e.hooks.requestShutdown = false then
    pushRequestShutdown zendInlineHashFunc e shutdownEnv
  else .ok e

/-- The hooks of `zend_compile_file`, `zend_compile_string` and
`gc_collect_cycles`, up to the execution. -/
def namedBefore (name : String) (e : Engine) (env : HookEnv) : Except Die Engine :=
  internalBefore zendInlineHashFunc (e.setActive (some name)) ⟨"", ""⟩ env

/-- The same hooks, from the execution on. -/
def namedAfter (e : Engine) (env : HookEnv) : Except Die Engine :=
  (internalAfter zendInlineHashFunc e env).map fun e => e.setActive none

/-- The hook of an activity, up to the execution. -/
def activityBefore (e : Engine) (env : HookEnv) : Activity → Except Die Engine
  | .userCall function => executeExBefore zendInlineHashFunc e function env
  | .internalCall function => internalBefore zendInlineHashFunc e function env
  | .compileFile => namedBefore zendInlineHashFunc "::zend_compile_file" e env
  | .compileString => namedBefore zendInlineHashFunc "::zend_compile_string" e env
  | .gcCollectCycles => namedBefore zendInlineHashFunc "::gc_collect_cycles" e env

/-- The hook of an activity, from the execution on. -/
def activityAfter (e : Engine) (env shutdownEnv : HookEnv) : Activity → Except Die Engine
  | .userCall _ => executeExAfter zendInlineHashFunc e env shutdownEnv
  | .internalCall _ => internalAfter zendInlineHashFunc e env
  | .compileFile | .compileString | .gcCollectCycles => namedAfter zendInlineHashFunc e env

/-- `spx_php_execution_finalize`. -/
def spxPhpExecutionFinalize (e : Engine) (env : HookEnv) : Except Die Engine :=
  if e.hooks.requestShutdown = false then .ok e
  else
    (if e.hooks.internalHooked then
      (profilingHandlerExHookAfter zendInlineHashFunc (e.setActive (some phpRequestShutdown))
        env).map fun e => e.setActive none
    else .ok e).map fun e => { e with hooks := { e.hooks with requestShutdown := false } }

/-! ## The profiling handler -/

/-- `profiling_handler_stop`. -/
def profilingHandlerStop (e : Engine) (env : StopEnv) : Except Die Engine :=
  (spxPhpExecutionFinalize zendInlineHashFunc e env.hook).bind fun e =>
    match e.profiler with
    | none => .ok { e with reporter := none }
    | some a =>
      (a.profiler.finalize env.unwinding).map fun _ => { e with profiler := none, reporter := none }

/-- `profiling_handler_start`. -/
def profilingHandlerStart (e : Engine) (env : StartEnv) : Except Die Engine :=
  if e.profiler.isSome then .ok e
  else
    let e := { e with fullReportKey := "" }
    if env.reporterCreated = false then
      profilingHandlerStop zendInlineHashFunc { e with reporter := none } env.stop
    else
      let e :=
        { e with
          reporter := some e.config.report
          fullReportKey := if e.config.report = .full then env.reporterKey else e.fullReportKey }
      if env.tracerCreated = false then profilingHandlerStop zendInlineHashFunc e env.stop
      else
        let tracer := spxProfilerTracerCreate limits zendInlineHashFunc e.config.maxDepth
          e.config.enabledMetrics env.junk
        let e := { e with profiler := some ⟨.tracing tracer, []⟩ }
        if e.config.samplingPeriod > 0 then
          if env.samplerCreated = false then profilingHandlerStop zendInlineHashFunc e env.stop
          else .ok { e with profiler := some ⟨.sampling spxProfilerSamplerCreate tracer, []⟩ }
        else .ok e

/-- The replay of the call stack to a new profiler. -/
def replayCallStack : List PhpFunction → (ℕ → HookEnv) → AttachedProfiler →
    Except Die AttachedProfiler
  | [], _, a => .ok a
  | function :: frames, envs, a =>
    (a.callStart zendInlineHashFunc function (envs 0)).bind
      (replayCallStack frames fun i => envs (i + 1))

/-- `spx_profiler_start`. -/
def spxProfilerStart (e : Engine) (env : StartEnv) : Except Die Engine :=
  if e.config.autoStart then .ok e
  else
    let e := { e with spanDepth := e.spanDepth + 1 }
    if e.spanDepth > 1 then .ok e
    else if e.profiler.isSome then .ok e
    else
      (profilingHandlerStart limits zendInlineHashFunc e env).bind fun e =>
        match e.profiler with
        | none => .ok e
        | some a =>
          (replayCallStack zendInlineHashFunc e.frames env.replay a).map fun a =>
            { e with profiler := some a }

/-- `spx_profiler_stop`, with the string it returns. -/
def spxProfilerStop (e : Engine) (env : StopEnv) : Except Die (Engine × Option String) :=
  if e.config.autoStart then .ok (e, none)
  else if e.spanDepth = 0 then .ok (e, none)
  else
    let e := { e with spanDepth := e.spanDepth - 1 }
    if e.spanDepth > 0 then .ok (e, none)
    else
      (profilingHandlerStop zendInlineHashFunc e env).map fun e =>
        (e, if e.fullReportKey = "" then none else some e.fullReportKey)

/-- What the outside answers at the start of a request: whether the call stack could
be allocated, what the former request of the thread left, and the answers to an
automatic start. -/
structure InitEnv where
  callStackCreated : Bool
  fullReportKey : String
  spanDepth : ℕ
  activeFunctionName : Option String
  start : StartEnv

/-- The state before `profiling_handler_init`: hooks off, no profiler. -/
def Engine.idle (config : SpxConfig) (env : InitEnv) : Engine where
  config := config
  hooks := ⟨false, false, false, 0, false, env.activeFunctionName⟩
  callStack := none
  fullReportKey := env.fullReportKey
  reporter := none
  profiler := none
  spanDepth := env.spanDepth
  activities := []

/-- `profiling_handler_init`. -/
def profilingHandlerInit (config : SpxConfig) (env : InitEnv) : Except Die Engine :=
  let e := Engine.idle config env
  if env.callStackCreated = false then .ok e
  else
    let e :=
      { e with
        callStack := some ⟨[], limits.maxStackDepth⟩
        fullReportKey := ""
        spanDepth := 0
        -- `active_function_name` is not reset
        hooks :=
          { e.hooks with
            userHooked := true
            internalHooked := config.builtins
            globalHooksEnabled := true } }
    if config.autoStart then profilingHandlerStart limits zendInlineHashFunc e env.start else .ok e

/-- `profiling_handler_shutdown`. -/
def profilingHandlerShutdown (e : Engine) (env : StopEnv) : Except Die Engine :=
  (profilingHandlerStop zendInlineHashFunc e env).map fun e =>
    { e with
      callStack := none
      hooks :=
        { e.hooks with
          userHooked := false, internalHooked := false, userDepth := 0, requestShutdown := false } }

/-! ## Runs -/

/-- What can happen in a request: an activity is entered, the innermost one is left
or cut short by a bailout, which skips what follows its execution, or one of the
two functions is called. -/
inductive EngineOp where
  | enter (activity : Activity) (env : HookEnv)
  | leave (env shutdownEnv : HookEnv)
  | bailout
  | profilerStart (env : StartEnv)
  | profilerStop (env : StopEnv)

/-- One operation. -/
def engineStep (e : Engine) : EngineOp → Except Die Engine
  | .enter activity env =>
    let e := { e with activities := activity :: e.activities }
    if e.hooks.globalHooksEnabled then activityBefore zendInlineHashFunc e env activity else .ok e
  | .leave env shutdownEnv =>
    match e.activities with
    | [] => .ok e
    | activity :: activities =>
      let e := { e with activities := activities }
      if e.hooks.globalHooksEnabled then
        activityAfter zendInlineHashFunc e env shutdownEnv activity
      else .ok e
  | .bailout => .ok { e with activities := e.activities.tail }
  | .profilerStart env => spxProfilerStart limits zendInlineHashFunc e env
  | .profilerStop env => (spxProfilerStop zendInlineHashFunc e env).map Prod.fst

/-- A request of the profiling handler up to its shutdown. -/
def engineRun (config : SpxConfig) (env : InitEnv) (ops : List EngineOp) : Except Die Engine :=
  (profilingHandlerInit limits zendInlineHashFunc config env).bind
    (runSteps (engineStep limits zendInlineHashFunc) ops)

/-- A whole request of the profiling handler. -/
def engineRequest (config : SpxConfig) (env : InitEnv) (ops : List EngineOp) (stop : StopEnv) :
    Except Die Engine :=
  (engineRun limits zendInlineHashFunc config env ops).bind
    (profilingHandlerShutdown zendInlineHashFunc · stop)

end Engine

end PhpSpx
