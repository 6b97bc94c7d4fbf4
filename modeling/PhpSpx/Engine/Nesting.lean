import PhpSpx.Engine.Attached
import PhpSpx.Profiler.OpenFrames

/-!
# Deeply nested calls

The hooks of `php_spx.c` along a run of nested calls.  The depth limit is enforced in
three places: the tracing profiler just stops following the calls, while the hook
call stack and the stack of the sampling profiler make the process die once they are
full.

* `hookStep` — one hook.
* `Engine.nestingLimit` — how deep the calls can be nested.
* `Engine.Nests` — the invariant: the hook call stack and the attached profiler are in
  the calls that are open.
* `hooks_survive_nesting_iff` — whole runs.
-/

namespace PhpSpx

open Lib

/-! ## Runs of hooks -/

/-- What a before hook is called with: the function the engine executes, and the name
`spx_php.c` may have set in its place. -/
structure HookStart where
  activeFunctionName : Option String
  current : PhpFunction
  env : HookEnv

/-- The function `spx_php_current_function` answers. -/
def HookStart.function (call : HookStart) : PhpFunction :=
  match call.activeFunctionName with
  | some name => ⟨name, ""⟩
  | none => call.current

/-- A call of one of the two hooks. -/
abbrev HookOp := Paren HookStart HookEnv

/-- Whether the flag `ready` was set at a hook. -/
def HookOp.ready : HookOp → Bool
  | .opening call => call.env.ready
  | .closing env => env.ready

/-- Whether it was set at the last one. -/
def lastReady (ops : List HookOp) : Bool := ops.getLast?.any HookOp.ready

/-- A profiler that samples. -/
def Profiler.isSampling : Profiler → Bool
  | .tracing _ => false
  | .sampling .. => true

/-- How many calls can be open: the capacity of the hook call stack and, when a
sampling profiler is attached, that of its own stack. -/
def Engine.nestingLimit (e : Engine) : ℕ :=
  let capacity := (e.callStack.map CallStack.capacity).getD 0
  if e.profiler.any fun a => a.profiler.isSampling then min capacity samplerStackCapacity
  else capacity

section Hash

variable (zendInlineHashFunc : String → UInt64)

/-- One hook. -/
def hookStep (e : Engine) : HookOp → Except Die Engine
  | .opening call =>
    profilingHandlerExHookBefore zendInlineHashFunc (e.setActive call.activeFunctionName)
      call.current call.env
  | .closing env => profilingHandlerExHookAfter zendInlineHashFunc e env

/-- The profiler profiles these open calls, outermost first: a tracing profiler has
them open.  A sampling profiler has them on its stack, and the sampled profiler has
open the calls of the last sample, as far as their hash codes tell them apart. -/
def Profiler.Profiles (sampled : Bool) (calls : List PhpFunction) : Profiler → Prop
  | .tracing tracer => tracer.HasOpen calls
  | .sampling sampler tracer =>
    sampler.current = calls ∧ (sampled = true → sampler.previous = calls) ∧
      ∃ shown : List PhpFunction, tracer.HasOpen shown ∧
        shown.map (PhpFunction.hashCode zendInlineHashFunc)
          = sampler.previous.map (PhpFunction.hashCode zendInlineHashFunc)

/-! ## Profilers in open calls -/

/-- The tracing profiler is in use and is in these calls, innermost first. -/
def TracerIn (calls : List PhpFunction) (tracer : Tracer) : Prop :=
  ∃ L, Refines tracer L ∧ Idle tracer ∧ L.finalized = false ∧ L.Opens calls

theorem tracerIn_create (limits : Limits) (maxDepth : ℕ) (enabledMetrics : Metric → Bool)
    (junk : MetricValues) :
    TracerIn [] (spxProfilerTracerCreate limits zendInlineHashFunc maxDepth enabledMetrics junk) := by
  obtain ⟨href, hidle⟩ := refines_create limits zendInlineHashFunc maxDepth enabledMetrics junk
  exact ⟨_, href, hidle, rfl, Live.opens_init _ _ _ _⟩

theorem keptByCalls_tracerIn : KeptByCalls TracerIn where
  callStart := by
    rintro calls tracer ⟨L, href, hidle, hfin, hopens⟩ f input calibration
    obtain ⟨t, ht, href', hidle'⟩ := href.callStart hidle f input calibration
    have hfin' := (L.depth_callStart hfin f input.reading).2
    exact ⟨t, ht, _, href', hidle', hfin', hopens.callStart href.ok hfin f _⟩
  callEnd := by
    rintro f calls tracer ⟨L, href, hidle, hfin, hopens⟩ input
    obtain ⟨M, hM⟩ := L.exists_callEnd (fun _ => by rw [hopens.depth]; exact Nat.succ_pos _)
      input.reading
    obtain ⟨t, ht, href', hidle'⟩ := href.callEnd hidle.calibrated hM
    exact ⟨t, ht, M, href', hidle', (L.depth_callEnd hfin hM).2, hopens.callEnd hfin hM⟩

theorem TracerIn.hasOpen {calls : List PhpFunction} {tracer : Tracer} (h : TracerIn calls tracer) :
    tracer.HasOpen calls.reverse := by
  obtain ⟨L, href, hidle, hfin, hopens⟩ := h
  exact href.hasOpen hidle hfin hopens

/-- A profiler in these calls, innermost first. -/
def Profiler.In (sampled : Bool) (calls : List PhpFunction) : Profiler → Prop
  | .tracing tracer => TracerIn calls tracer
  | .sampling sampler tracer =>
    sampler.Shown (PhpFunction.hashCode zendInlineHashFunc) ∧ sampler.current = calls.reverse ∧
      (sampled = true → sampler.previous = sampler.current) ∧
      ∀ shown, pending [] sampler.sampledProfiler = some shown → TracerIn shown tracer

variable {zendInlineHashFunc}

theorem Profiler.In.profiles {sampled : Bool} {calls : List PhpFunction} {p : Profiler}
    (h : p.In zendInlineHashFunc sampled calls) :
    p.Profiles zendInlineHashFunc sampled calls.reverse := by
  cases p with
  | tracing tracer => exact TracerIn.hasOpen h
  | sampling sampler tracer =>
    obtain ⟨⟨shown, hshown, hhash⟩, hcurrent, hsampled, htracer⟩ := h
    refine ⟨hcurrent, fun hs => (hsampled hs).trans hcurrent, shown.reverse,
      (htracer shown hshown).hasOpen, ?_⟩
    rw [List.map_reverse, hhash, List.reverse_reverse]

/-- The profiler is told that a call starts, with room for it when it samples. -/
theorem Profiler.In.callStart {sampled : Bool} {calls : List PhpFunction} {p : Profiler}
    (h : p.In zendInlineHashFunc sampled calls)
    (hroom : p.isSampling = true → calls.length < samplerStackCapacity) (f : PhpFunction)
    (env : HookEnv) :
    ∃ q, p.callStart zendInlineHashFunc f env = .ok q ∧
      q.In zendInlineHashFunc env.ready (f :: calls) ∧ q.isSampling = p.isSampling := by
  cases p with
  | tracing tracer =>
    obtain ⟨t, ht, hin⟩ := keptByCalls_tracerIn.callStart h f (env.inputs 0).hook
      (env.inputs 0).calibration
    exact ⟨.tracing t, by rw [Profiler.callStart, ht]; rfl, hin, rfl⟩
  | sampling sampler tracer =>
    obtain ⟨hshown, hcurrent, -, htracer⟩ := h
    have hlen : sampler.current.length ≠ samplerStackCapacity := by
      rw [hcurrent, List.length_reverse]
      exact Nat.ne_of_lt (hroom rfl)
    set pushed : Sampler := { sampler with current := sampler.current ++ [f] } with hpushed
    have hshown' : pushed.Shown (PhpFunction.hashCode zendInlineHashFunc) := hshown
    set after := pushed.handleSample (PhpFunction.hashCode zendInlineHashFunc) false env.ready
      with hafterdef
    have hafter : after.Shown (PhpFunction.hashCode zendInlineHashFunc) :=
      hshown'.handleSample (fun hend => absurd hend Bool.false_ne_true) env.ready
    have hcurrent' : after.current = (f :: calls).reverse := by
      rw [hafterdef, pushed.current_handleSample, hpushed, hcurrent, List.reverse_cons]
    obtain ⟨t, ht, hin⟩ := keptByCalls_tracerIn.sampled hshown' htracer hafter
      (pushed.sampledProfiler_handleSample _ false env.ready) env
    refine ⟨.sampling after t, ?_, ⟨hafter, hcurrent', ?_, hin⟩, rfl⟩
    · rw [Profiler.callStart, samplingProfilerCallStart, if_neg hlen]
      exact ht
    · intro hready
      rw [hafterdef, hready, pushed.previous_handleSample, pushed.current_handleSample,
        if_neg Bool.false_ne_true]

/-- A sampling profiler whose stack is full makes the process die. -/
theorem Profiler.In.callStart_full {sampled : Bool} {calls : List PhpFunction} {p : Profiler}
    (h : p.In zendInlineHashFunc sampled calls) (hsampling : p.isSampling = true)
    (hfull : calls.length = samplerStackCapacity) (f : PhpFunction) (env : HookEnv) :
    p.callStart zendInlineHashFunc f env = .error .samplerStackCapacityExceeded := by
  cases p with
  | tracing tracer => cases hsampling
  | sampling sampler tracer =>
    obtain ⟨-, hcurrent, -, -⟩ := h
    have hlen : sampler.current.length = samplerStackCapacity := by
      rw [hcurrent, List.length_reverse, hfull]
    rw [Profiler.callStart, samplingProfilerCallStart, if_pos hlen]
    rfl

/-- The profiler is told that a call ends. -/
theorem Profiler.In.callEnd {sampled : Bool} {f : PhpFunction} {calls : List PhpFunction}
    {p : Profiler} (h : p.In zendInlineHashFunc sampled (f :: calls)) (env : HookEnv) :
    ∃ q, p.callEnd zendInlineHashFunc env = .ok q ∧
      q.In zendInlineHashFunc env.ready calls ∧ q.isSampling = p.isSampling := by
  cases p with
  | tracing tracer =>
    obtain ⟨t, ht, hin⟩ := keptByCalls_tracerIn.callEnd h (env.inputs 0).hook
    exact ⟨.tracing t, by rw [Profiler.callEnd, ht]; rfl, hin, rfl⟩
  | sampling sampler tracer =>
    obtain ⟨hshown, hcurrent, -, htracer⟩ := h
    have hne : sampler.current ≠ [] := by simp [hcurrent]
    set after := samplingProfilerCallEnd (PhpFunction.hashCode zendInlineHashFunc) sampler env.ready
      with hafterdef
    have hafter : after.Shown (PhpFunction.hashCode zendInlineHashFunc) :=
      hshown.handleSample (fun _ => hne) env.ready
    have hcurrent' : after.current = calls.reverse := by
      show (sampler.handleSample _ true env.ready).current.dropLast = _
      rw [sampler.current_handleSample, hcurrent, List.reverse_cons, List.dropLast_concat]
    obtain ⟨t, ht, hin⟩ := keptByCalls_tracerIn.sampled hshown htracer hafter
      (sampler.sampledProfiler_handleSample _ true env.ready) env
    refine ⟨.sampling after t, ht, ⟨hafter, hcurrent', ?_, hin⟩, rfl⟩
    intro hready
    show (sampler.handleSample _ true env.ready).previous
      = (sampler.handleSample _ true env.ready).current.dropLast
    rw [hready, sampler.previous_handleSample, sampler.current_handleSample, if_pos rfl]

/-! ## The hooks in open calls -/

variable (zendInlineHashFunc)

/-- The hook call stack holds these open calls, outermost first, and the attached
profiler profiles them. -/
structure Engine.Profiles (sampled : Bool) (calls : List PhpFunction) (e : Engine) : Prop where
  frames : e.frames = calls
  profiler : ∀ a, e.profiler = some a → a.profiler.Profiles zendInlineHashFunc sampled calls

/-- The hook call stack and the attached profiler are in these calls, innermost first. -/
structure Engine.Nests (sampled : Bool) (calls : List PhpFunction) (e : Engine) : Prop where
  stack : ∃ capacity, e.callStack = some ⟨calls.reverse, capacity⟩
  profiler : ∀ a, e.profiler = some a → a.profiler.In zendInlineHashFunc sampled calls

variable {zendInlineHashFunc}

theorem Engine.Nests.profiles {sampled : Bool} {calls : List PhpFunction} {e : Engine}
    (h : e.Nests zendInlineHashFunc sampled calls) :
    e.Profiles zendInlineHashFunc sampled calls.reverse := by
  obtain ⟨⟨capacity, hstack⟩, hprofiler⟩ := h
  exact ⟨by rw [Engine.frames, hstack]; rfl, fun a ha => (hprofiler a ha).profiles⟩

/-- What the limit and the profiler's presence are made of stays. -/
def Engine.SameLimit (e e' : Engine) : Prop :=
  e'.nestingLimit = e.nestingLimit ∧ e'.profiler.isSome = e.profiler.isSome

theorem nestingLimit_of_none {e : Engine} {stack : CallStack} (hstack : e.callStack = some stack)
    (hp : e.profiler = none) : e.nestingLimit = stack.capacity := by
  rw [Engine.nestingLimit, hstack, hp]
  rfl

theorem nestingLimit_of_some {e : Engine} {stack : CallStack} {a : AttachedProfiler}
    (hstack : e.callStack = some stack) (hp : e.profiler = some a) :
    e.nestingLimit =
      if a.profiler.isSampling then min stack.capacity samplerStackCapacity
      else stack.capacity := by
  rw [Engine.nestingLimit, hstack, hp]
  rfl

theorem nestingLimit_le_capacity {e : Engine} {stack : CallStack}
    (hstack : e.callStack = some stack) : e.nestingLimit ≤ stack.capacity := by
  cases hp : e.profiler with
  | none => exact (nestingLimit_of_none hstack hp).le
  | some a =>
    rw [nestingLimit_of_some hstack hp]
    split
    · exact min_le_left _ _
    · exact le_rfl

/-- The capacity and the kind of the attached profiler are all that matters. -/
theorem sameLimit_of_kind {e e' : Engine} {stack stack' : CallStack}
    (hstack : e.callStack = some stack) (hstack' : e'.callStack = some stack')
    (hcapacity : stack'.capacity = stack.capacity)
    (hkind : (e'.profiler.map fun a => a.profiler.isSampling)
      = e.profiler.map fun a => a.profiler.isSampling) : e.SameLimit e' := by
  cases hp : e.profiler with
  | none =>
    rw [hp, Option.map_none, Option.map_eq_none_iff] at hkind
    refine ⟨?_, by rw [hp, hkind]⟩
    rw [nestingLimit_of_none hstack hp, nestingLimit_of_none hstack' hkind, hcapacity]
  | some a =>
    rw [hp, Option.map_some, Option.map_eq_some_iff] at hkind
    obtain ⟨b, hp', hkind⟩ := hkind
    refine ⟨?_, by rw [hp, hp', Option.isSome_some, Option.isSome_some]⟩
    rw [nestingLimit_of_some hstack hp, nestingLimit_of_some hstack' hp', hkind, hcapacity]

theorem setActive_callStack (e : Engine) (name : Option String) :
    (e.setActive name).callStack = e.callStack := rfl

/-- The before hook on a stack that has room. -/
theorem hookStep_opening {e : Engine} {frames : List PhpFunction} {capacity : ℕ}
    (hstack : e.callStack = some ⟨frames, capacity⟩) (hroom : frames.length < capacity)
    (call : HookStart) :
    hookStep zendInlineHashFunc e (.opening call) =
      let e₁ := { e.setActive call.activeFunctionName with
        callStack := some ⟨frames ++ [call.function], capacity⟩ }
      match e.profiler with
      | none => .ok e₁
      | some a =>
        (a.callStart zendInlineHashFunc call.function call.env).map fun a =>
          { e₁ with profiler := some a } := by
  have hfull : (⟨frames, capacity⟩ : CallStack).isFull = false := decide_eq_false hroom.not_ge
  have hpush : CallStack.push ⟨frames, capacity⟩
      (spxPhpCurrentFunction (e.setActive call.activeFunctionName).hooks call.current)
      = some ⟨frames ++ [call.function], capacity⟩ := if_neg hroom.not_ge
  rw [hookStep, profilingHandlerExHookBefore, setActive_callStack, hstack]
  dsimp only
  rw [hfull, if_neg Bool.false_ne_true, hpush]
  rfl

/-- The before hook when one more call can be open. -/
theorem Engine.Nests.opening {sampled : Bool} {calls : List PhpFunction} {e : Engine}
    (h : e.Nests zendInlineHashFunc sampled calls) (hroom : calls.length < e.nestingLimit)
    (call : HookStart) :
    ∃ e', hookStep zendInlineHashFunc e (.opening call) = .ok e' ∧
      e'.Nests zendInlineHashFunc call.env.ready (call.function :: calls) ∧ e.SameLimit e' := by
  obtain ⟨⟨capacity, hstack⟩, hprofiler⟩ := h
  have hlen : calls.reverse.length < capacity := by
    rw [List.length_reverse]
    exact hroom.trans_le (nestingLimit_le_capacity hstack)
  have hpushed : calls.reverse ++ [call.function] = (call.function :: calls).reverse :=
    List.reverse_cons.symm
  rw [hookStep_opening hstack hlen, hpushed]
  cases hp : e.profiler with
  | none =>
    refine ⟨_, rfl, ⟨⟨capacity, rfl⟩, ?_⟩, sameLimit_of_kind hstack rfl rfl ?_⟩
    · intro a ha
      exact nomatch hp.symm.trans ha
    · rw [hp]
      exact congrArg _ hp
  | some a =>
    have hlimit := nestingLimit_of_some hstack hp
    have hsampling : a.profiler.isSampling = true → calls.length < samplerStackCapacity := by
      intro hs
      rw [hlimit, hs, if_pos rfl] at hroom
      exact hroom.trans_le (min_le_right _ _)
    obtain ⟨q, hq, hin, hkind⟩ := (hprofiler a hp).callStart hsampling call.function call.env
    refine ⟨{ e.setActive call.activeFunctionName with
      callStack := some ⟨(call.function :: calls).reverse, capacity⟩
      profiler := some ⟨q, a.given ++ [.opening call.function]⟩ }, ?_,
      ⟨⟨capacity, rfl⟩, fun b hb => ?_⟩, sameLimit_of_kind hstack rfl rfl ?_⟩
    · simp only [AttachedProfiler.callStart, hq]
      rfl
    · cases hb
      exact hin
    · rw [hp, Option.map_some, Option.map_some, hkind]

/-- The before hook when as many calls are open as can be. -/
theorem Engine.Nests.opening_full {sampled : Bool} {calls : List PhpFunction} {e : Engine}
    (h : e.Nests zendInlineHashFunc sampled calls) (hfull : calls.length = e.nestingLimit)
    (call : HookStart) :
    ∃ d, hookStep zendInlineHashFunc e (.opening call) = .error d := by
  obtain ⟨⟨capacity, hstack⟩, hprofiler⟩ := h
  rcases Nat.lt_or_ge calls.reverse.length capacity with hlen | hlen
  · -- the stack of the hooks has room, that of a sampling profiler has none
    rw [hookStep_opening hstack hlen]
    rw [List.length_reverse, hfull] at hlen
    cases hp : e.profiler with
    | none => exact absurd (nestingLimit_of_none hstack hp) (Nat.ne_of_lt hlen)
    | some a =>
      have hlimit := nestingLimit_of_some hstack hp
      cases hs : a.profiler.isSampling with
      | false =>
        rw [hs, if_neg Bool.false_ne_true] at hlimit
        exact absurd hlimit (Nat.ne_of_lt hlen)
      | true =>
        rw [hs, if_pos rfl] at hlimit
        have hcapacity : calls.length = samplerStackCapacity := by
          have hmin : min capacity samplerStackCapacity = e.nestingLimit := hlimit.symm
          omega
        refine ⟨.samplerStackCapacityExceeded, ?_⟩
        simp only [AttachedProfiler.callStart,
          (hprofiler a hp).callStart_full hs hcapacity call.function call.env]
        rfl
  · refine ⟨.callStackCapacityExceeded, ?_⟩
    have hisFull : (⟨calls.reverse, capacity⟩ : CallStack).isFull = true := decide_eq_true hlen
    rw [hookStep, profilingHandlerExHookBefore, setActive_callStack, hstack]
    exact if_pos hisFull

/-- The after hook. -/
theorem Engine.Nests.closing {sampled : Bool} {f : PhpFunction} {calls : List PhpFunction}
    {e : Engine} (h : e.Nests zendInlineHashFunc sampled (f :: calls)) (env : HookEnv) :
    ∃ e', hookStep zendInlineHashFunc e (.closing env) = .ok e' ∧
      e'.Nests zendInlineHashFunc env.ready calls ∧ e.SameLimit e' := by
  obtain ⟨⟨capacity, hstack⟩, hprofiler⟩ := h
  have hpop : CallStack.pop ⟨(f :: calls).reverse, capacity⟩ = some ⟨calls.reverse, capacity⟩ := by
    rw [CallStack.pop, CallStack.depth, List.reverse_cons, List.dropLast_concat, if_neg (by simp)]
  rw [hookStep, profilingHandlerExHookAfter, hstack, Option.bind_some, hpop]
  cases hp : e.profiler with
  | none =>
    refine ⟨_, rfl, ⟨⟨capacity, rfl⟩, ?_⟩, sameLimit_of_kind hstack rfl rfl ?_⟩
    · intro a ha
      cases ha
    · rw [hp]
  | some a =>
    obtain ⟨q, hq, hin, hkind⟩ := (hprofiler a hp).callEnd env
    refine ⟨{ e with
      callStack := some ⟨calls.reverse, capacity⟩
      profiler := some ⟨q, a.given ++ [.closing ()]⟩ }, ?_,
      ⟨⟨capacity, rfl⟩, fun b hb => ?_⟩, sameLimit_of_kind hstack rfl rfl ?_⟩
    · simp only [AttachedProfiler.callEnd, hq]
      rfl
    · cases hb
      exact hin
    · rw [hp, Option.map_some, Option.map_some, hkind]

/-! ## The start of a request -/

/-- Outside of the request shutdown, a stop detaches the profiler and does no more to
the call stack. -/
theorem profilingHandlerStop_eq_ok {e e' : Engine} {env : StopEnv}
    (hshutdown : e.hooks.requestShutdown = false)
    (h : profilingHandlerStop zendInlineHashFunc e env = .ok e') :
    e'.callStack = e.callStack ∧ e'.profiler = none := by
  rw [profilingHandlerStop, spxPhpExecutionFinalize, if_pos hshutdown] at h
  obtain ⟨e₁, he₁, h⟩ := bind_eq_ok_iff.mp h
  obtain rfl : e = e₁ := Except.ok.inj he₁
  cases hp : e.profiler with
  | none =>
    rw [hp] at h
    cases h
    exact ⟨rfl, rfl⟩
  | some a =>
    simp only [hp] at h
    cases hfinalize : a.profiler.finalize env.unwinding with
    | error d =>
      rw [hfinalize] at h
      cases h
    | ok q =>
      rw [hfinalize] at h
      cases h
      exact ⟨rfl, rfl⟩

/-- With an empty call stack and a profiler that was told nothing, if any. -/
theorem nests_nil {e : Engine} {capacity : ℕ} (hstack : e.callStack = some ⟨[], capacity⟩)
    (hp : ∀ a, e.profiler = some a → a.profiler.In zendInlineHashFunc false []) :
    e.Nests zendInlineHashFunc false [] where
  stack := ⟨capacity, hstack⟩
  profiler := hp

theorem nests_detached {e : Engine} {capacity : ℕ} (hstack : e.callStack = some ⟨[], capacity⟩)
    (hp : e.profiler = none) : e.Nests zendInlineHashFunc false [] :=
  nests_nil hstack fun _ ha => nomatch hp.symm.trans ha

/-- The start of a profile before any hook. -/
theorem nests_start {limits : Limits} {e e' : Engine} {capacity : ℕ} {env : StartEnv}
    (hstack : e.callStack = some ⟨[], capacity⟩) (hshutdown : e.hooks.requestShutdown = false)
    (hp : e.profiler = none)
    (h : profilingHandlerStart limits zendInlineHashFunc e env = .ok e') :
    e'.Nests zendInlineHashFunc false [] := by
  have hstop : ∀ {e₁ : Engine}, e₁.callStack = some ⟨[], capacity⟩ →
      e₁.hooks.requestShutdown = false →
      profilingHandlerStop zendInlineHashFunc e₁ env.stop = .ok e' →
      e'.Nests zendInlineHashFunc false [] := by
    intro e₁ hstack₁ hshutdown₁ h₁
    obtain ⟨hsame, hnone⟩ := profilingHandlerStop_eq_ok hshutdown₁ h₁
    exact nests_detached (hsame.trans hstack₁) hnone
  have hin : TracerIn [] (spxProfilerTracerCreate limits zendInlineHashFunc e.config.maxDepth
      e.config.enabledMetrics env.junk) := tracerIn_create _ _ _ _ _
  rw [profilingHandlerStart, hp, Option.isSome_none, if_neg Bool.false_ne_true] at h
  by_cases hreporter : env.reporterCreated = false
  · rw [if_pos hreporter] at h
    exact hstop (by exact hstack) (by exact hshutdown) h
  rw [if_neg hreporter] at h
  by_cases htracer : env.tracerCreated = false
  · rw [if_pos htracer] at h
    exact hstop (by exact hstack) (by exact hshutdown) h
  rw [if_neg htracer] at h
  by_cases hperiod : e.config.samplingPeriod > 0
  · rw [if_pos hperiod] at h
    by_cases hsampler : env.samplerCreated = false
    · rw [if_pos hsampler] at h
      exact hstop (by exact hstack) (by exact hshutdown) h
    · rw [if_neg hsampler] at h
      cases h
      refine nests_nil hstack ?_
      intro a ha
      cases ha
      refine ⟨shown_create _, rfl, fun _ => rfl, ?_⟩
      intro shown hshown
      cases hshown
      exact hin
  · rw [if_neg hperiod] at h
    cases h
    refine nests_nil hstack ?_
    intro a ha
    cases ha
    exact hin

/-- The state a request starts in. -/
theorem nests_init {limits : Limits} {config : SpxConfig} {env : InitEnv} {e : Engine}
    (hcreated : env.callStackCreated = true)
    (h : profilingHandlerInit limits zendInlineHashFunc config env = .ok e) :
    e.Nests zendInlineHashFunc false [] := by
  rw [profilingHandlerInit, hcreated, if_neg (Ne.symm Bool.false_ne_true)] at h
  by_cases hauto : config.autoStart = true
  · rw [if_pos hauto] at h
    exact nests_start rfl rfl rfl h
  · rw [if_neg hauto] at h
    cases h
    exact nests_detached rfl rfl

/-! ## Runs -/

/-- **One hook** that succeeds leaves no more calls open than can be. -/
theorem Engine.Nests.step {sampled : Bool} {calls calls' : List HookStart} {e e' : Engine}
    (h : e.Nests zendInlineHashFunc sampled (calls.map HookStart.function))
    (hle : calls.length ≤ e.nestingLimit) {op : HookOp} (hop : pending calls [op] = some calls')
    (hstep : hookStep zendInlineHashFunc e op = .ok e') :
    e'.Nests zendInlineHashFunc op.ready (calls'.map HookStart.function) ∧
      calls'.length ≤ e.nestingLimit ∧ e.SameLimit e' := by
  cases op with
  | opening call =>
    obtain rfl : call :: calls = calls' := by simpa using hop
    rcases Nat.lt_or_ge calls.length e.nestingLimit with hlt | hge
    · obtain ⟨s, hs, hnests, hsame⟩ := h.opening (by rwa [List.length_map]) call
      obtain rfl : s = e' := Except.ok.inj (hs.symm.trans hstep)
      exact ⟨hnests, hlt, hsame⟩
    · obtain ⟨d, hd⟩ := h.opening_full (by rw [List.length_map]; omega) call
      exact nomatch hd.symm.trans hstep
  | closing env =>
    cases calls with
    | nil => cases hop
    | cons call calls =>
      obtain rfl : calls = calls' := by simpa using hop
      obtain ⟨s, hs, hnests, hsame⟩ := h.closing env
      obtain rfl : s = e' := Except.ok.inj (hs.symm.trans hstep)
      exact ⟨hnests, (Nat.le_succ _).trans hle, hsame⟩

/-- A hook after which no more calls are open than can be succeeds. -/
theorem Engine.Nests.step_succeeds {sampled : Bool} {calls calls' : List HookStart} {e : Engine}
    (h : e.Nests zendInlineHashFunc sampled (calls.map HookStart.function)) {op : HookOp}
    (hop : pending calls [op] = some calls') (hle : calls'.length ≤ e.nestingLimit) :
    ∃ e', hookStep zendInlineHashFunc e op = .ok e' := by
  cases op with
  | opening call =>
    obtain rfl : call :: calls = calls' := by simpa using hop
    obtain ⟨s, hs, -⟩ := h.opening (by rwa [List.length_map]) call
    exact ⟨s, hs⟩
  | closing env =>
    cases calls with
    | nil => cases hop
    | cons call calls =>
      obtain ⟨s, hs, -⟩ := h.closing env
      exact ⟨s, hs⟩

theorem lastReady_concat (ops : List HookOp) (op : HookOp) :
    lastReady (ops ++ [op]) = op.ready := by
  rw [lastReady, List.getLast?_concat]
  rfl

/-- **A run that succeeds** leaves no more calls open than can be. -/
theorem Engine.Nests.run {e s : Engine} (h : e.Nests zendInlineHashFunc false [])
    {ops : List HookOp} {calls : List HookStart} (hops : pending [] ops = some calls)
    (hrun : runSteps (hookStep zendInlineHashFunc) ops e = .ok s) :
    s.Nests zendInlineHashFunc (lastReady ops) (calls.map HookStart.function) ∧
      calls.length ≤ e.nestingLimit ∧ e.SameLimit s := by
  induction ops using List.reverseRecOn generalizing calls s with
  | nil =>
    cases hops
    cases hrun
    exact ⟨h, Nat.zero_le _, rfl, rfl⟩
  | append_singleton ops op ih =>
    rw [pending_append] at hops
    obtain ⟨before, hbefore, hop⟩ := Option.bind_eq_some_iff.mp hops
    rw [runSteps_append] at hrun
    obtain ⟨t, ht, hlast⟩ := bind_eq_ok_iff.mp hrun
    obtain ⟨hnests, hle, hsame⟩ := ih hbefore ht
    obtain ⟨u, hu, hrest⟩ := bind_eq_ok_iff.mp hlast
    obtain rfl : u = s := Except.ok.inj hrest
    obtain ⟨hnests', hle', hsame'⟩ := hnests.step (hsame.1 ▸ hle) hop hu
    rw [lastReady_concat]
    exact ⟨hnests', hsame.1 ▸ hle', hsame'.1.trans hsame.1, hsame'.2.trans hsame.2⟩

/-- A run in which never more calls are open than can be succeeds. -/
theorem Engine.Nests.run_succeeds {e : Engine} (h : e.Nests zendInlineHashFunc false [])
    {ops : List HookOp} {calls : List HookStart} (hops : pending [] ops = some calls)
    (hle : ∀ done open', done <+: ops → pending [] done = some open' →
      open'.length ≤ e.nestingLimit) :
    ∃ s, runSteps (hookStep zendInlineHashFunc) ops e = .ok s := by
  induction ops using List.reverseRecOn generalizing calls with
  | nil => exact ⟨e, rfl⟩
  | append_singleton ops op ih =>
    have hall := hle _ _ (List.prefix_refl _) hops
    rw [pending_append] at hops
    obtain ⟨before, hbefore, hop⟩ := Option.bind_eq_some_iff.mp hops
    obtain ⟨t, ht⟩ := ih hbefore fun done opened hdone =>
      hle done opened (hdone.trans (List.prefix_append _ _))
    obtain ⟨hnests, -, hsame⟩ := h.run hbefore ht
    obtain ⟨s, hs⟩ := hnests.step_succeeds hop (hsame.1.symm ▸ hall)
    refine ⟨s, ?_⟩
    rw [runSteps_append]
    exact bind_eq_ok_iff.mpr ⟨t, ht, bind_eq_ok_iff.mpr ⟨s, hs, rfl⟩⟩

variable (zendInlineHashFunc)

/-- **Deeply nested calls.**  In a properly nested sequence of hooks the process dies at
no hook, and the hook call stack and the profiler, still attached, have after each of
them the calls that are then open, exactly when never more calls are open than the hook
call stack holds and, when the profile is sampled, than the sampling profiler holds. -/
theorem hooks_survive_nesting_iff (limits : Limits) (config : SpxConfig) {env : InitEnv}
    (hcreated : env.callStackCreated = true) {e : Engine}
    (he : profilingHandlerInit limits zendInlineHashFunc config env = .ok e) (ops : List HookOp) :
    (∀ done calls, done <+: ops → pending [] done = some calls →
        ∃ s, runSteps (hookStep zendInlineHashFunc) done e = .ok s ∧
          s.Profiles zendInlineHashFunc (lastReady done) (calls.map HookStart.function).reverse ∧
          s.profiler.isSome = e.profiler.isSome) ↔
      ∀ done calls, done <+: ops → pending [] done = some calls →
        calls.length ≤ e.nestingLimit := by
  have hnests : e.Nests zendInlineHashFunc false [] := nests_init hcreated he
  constructor
  · intro h done calls hdone hcalls
    obtain ⟨s, hs, -⟩ := h done calls hdone hcalls
    exact (hnests.run hcalls hs).2.1
  · intro h done calls hdone hcalls
    obtain ⟨s, hs⟩ := hnests.run_succeeds hcalls fun done' opened hdone' =>
      h done' opened (hdone'.trans hdone)
    obtain ⟨hs', -, hsame⟩ := hnests.run hcalls hs
    exact ⟨s, hs, hs'.profiles, hsame.2⟩

/-- A hook at which nothing is measured. -/
def quietHook : HookEnv := ⟨false, fun _ => ⟨endAt 0, ⟨fun _ _ => 0, fun _ _ => 0, 0, 0, 0, 0⟩⟩⟩

/-- The start of a request in which everything can be created. -/
def quietInit : InitEnv :=
  ⟨true, "", 0, none, ⟨true, "", true, fun _ => 0, true, ⟨quietHook, fun _ => endAt 0⟩,
    fun _ => quietHook⟩⟩

theorem quietInit_callStackCreated : quietInit.callStackCreated = true := rfl

/-- With the default limits, 2048 calls can be open. -/
theorem exists_quietInit :
    ∃ e, profilingHandlerInit (limitsInit fun _ => none) (fun _ => 0) (defaultConfig true) quietInit
      = .ok e ∧ e.nestingLimit = 2048 := ⟨_, rfl, rfl⟩

/-- A call of a function. -/
def quietCall (name : String) : HookStart := ⟨none, ⟨name, ""⟩, quietHook⟩

/-- A function calls another one. -/
theorem hooks_survive_nesting_two_calls :
    let ops : List HookOp := [.opening (quietCall "main.php"), .opening (quietCall "f"),
      .closing quietHook, .closing quietHook]
    ∃ e, profilingHandlerInit (limitsInit fun _ => none) (fun _ => 0) (defaultConfig true) quietInit
        = .ok e ∧
      ∀ done calls, done <+: ops → pending [] done = some calls →
        ∃ s, runSteps (hookStep fun _ => 0) done e = .ok s ∧
          s.Profiles (fun _ => 0) (lastReady done) (calls.map HookStart.function).reverse ∧
          s.profiler.isSome = e.profiler.isSome := by
  intro ops
  obtain ⟨e, he, hlimit⟩ := exists_quietInit
  refine ⟨e, he, (hooks_survive_nesting_iff (fun _ => 0) (limitsInit fun _ => none)
    (defaultConfig true) quietInit_callStackCreated he ops).mpr fun done calls hdone hcalls => ?_⟩
  have hle : calls.length ≤ 0 + done.length := length_pending_le hcalls
  have hdone' : done.length ≤ 4 := hdone.length_le
  omega

/-- With the default limits, a function calls itself until 2049 calls are open. -/
theorem hooks_die_of_deep_recursion :
    let ops : List HookOp := (List.replicate 2049 (quietCall "f")).map .opening
    ∃ e calls, profilingHandlerInit (limitsInit fun _ => none) (fun _ => 0) (defaultConfig true)
        quietInit = .ok e ∧ pending [] ops = some calls ∧
      ¬∃ s, runSteps (hookStep fun _ => 0) ops e = .ok s := by
  intro ops
  obtain ⟨e, he, hlimit⟩ := exists_quietInit
  have hops : pending [] ops = some ((List.replicate 2049 (quietCall "f")).reverse ++ []) :=
    pending_map_opening _ _
  refine ⟨e, _, he, hops, ?_⟩
  rintro ⟨s, hs⟩
  have hle := ((nests_init quietInit_callStackCreated he).run hops hs).2.1
  rw [hlimit, List.append_nil, List.length_reverse, List.length_replicate] at hle
  omega

end Hash

end PhpSpx
